import Aeryk.Vm.Roots

/-!
# Cloning an address space

`vmm_clone_user_pagetable` visits the present pages of the parent in increasing order: the entry of
the parent is made copy-on-write if it is a private writable page, the frame gets another
reference, and the entry is mapped in the child.

`vmm_map_page` cannot report that a table could not be allocated, so the loop goes on and the
reference stays.  `Cloning` describes the memory after any number of pages, with the pages that
were lost in this way.  From the first of them on the allocator is out of frames, so a page is
mapped exactly if the tables on its way are there.
-/

namespace Aeryk.Vm

open Finset Lib Mem Mem.Pmm Memory

/-! ## The entry after a fork -/

/-- The leaf entry that parent and child have after a fork. -/
def forked (w : Word) : Word := entry (physOf w) (forkFlags w)

section

variable {w flag : Word}

theorem entry_split (w : Word) : entry (physOf w) (w &&& flagsMask) = w := by
  have hmask : addrMask ||| flagsMask = BitVec.allOnes 64 := by decide
  have hor : w &&& addrMask ||| w &&& flagsMask = w &&& (addrMask ||| flagsMask) := by
    ext i
    simp only [BitVec.getElem_and, BitVec.getElem_or, Bool.and_or_distrib_left]
  rw [entry, physOf, BitVec.ofNat_toNat, BitVec.setWidth_eq, hor, hmask, BitVec.and_allOnes]

theorem forkFlags_addr (w : Word) : forkFlags w &&& addrMask = 0#64 := by
  unfold forkFlags
  split
  · have hor : (w &&& flagsMask &&& ~~~pteWritable ||| pteCow) &&& addrMask =
        (w &&& flagsMask &&& ~~~pteWritable &&& addrMask) ||| (pteCow &&& addrMask) := by
      ext i
      simp only [BitVec.getElem_and, BitVec.getElem_or, Bool.and_or_distrib_right]
    rw [hor, flags_addr]
    decide
  · rw [BitVec.and_assoc]
    have hzero : flagsMask &&& addrMask = 0#64 := by decide
    rw [hzero, BitVec.and_zero]

/-- A fork changes no flag but `PTE_WRITABLE` and `PTE_COW`. -/
theorem isSet_forkFlags (hf : flagsMask &&& flag = flag) (hw : ~~~pteWritable &&& flag = flag)
    (hc : pteCow &&& flag = 0#64) : isSet (forkFlags w) flag = isSet w flag := by
  unfold forkFlags
  split
  · have hcow : isSet pteCow flag = false := by
      rw [isSet, hc]
      rfl
    rw [isSet_or, isSet_and _ _ _ hw, isSet_and _ _ _ hf, hcow, Bool.or_false]
  · exact isSet_and _ _ _ hf

theorem isSet_forked (hflag : addrMask &&& flag = 0#64) :
    isSet (forked w) flag = isSet (forkFlags w) flag := by
  rw [forked, physOf_eq]
  exact isSet_entry (frameOf_lt w) hflag

theorem present_forked : isSet (forked w) ptePresent = isSet w ptePresent := by
  rw [isSet_forked (by decide), isSet_forkFlags (by decide) (by decide) (by decide)]

theorem nopmm_forked : isSet (forked w) pteNopmm = isSet w pteNopmm := by
  rw [isSet_forked (by decide), isSet_forkFlags (by decide) (by decide) (by decide)]

theorem frameOf_forked : frameOf (forked w) = frameOf w := by
  rw [forked, physOf_eq]
  exact frameOf_entry (frameOf_lt w) (forkFlags_addr w)

theorem owned_forked : owned (forked w) = owned w := by
  unfold owned
  rw [present_forked, nopmm_forked, frameOf_forked]

end

section

variable {m m' m₀ : Memory} {res : Nat → Bool} {R : Finset Nat} {K : Nat → Nat}
  {r r' d k t f v va dst : Nat} {w : Word}

theorem store_self (mem : Nat → Nat → Word) (t i : Nat) : Radix.store mem t i (mem t i) = mem := by
  rw [Radix.store, Function.update_eq_self, Function.update_eq_self]

/-- The store to the entry of the parent, also where the source leaves it out. -/
theorem downgrade_eq (m : Memory) (pt i : Nat) :
    m.downgrade pt i = m.set pt i (forked (m.words pt i)) := by
  unfold Memory.downgrade
  dsimp only
  split
  · rfl
  next hno =>
    have hsame : forked (m.words pt i) = m.words pt i := by
      rw [forked, forkFlags, if_neg hno]
      exact entry_split _
    rw [hsame, Memory.set, store_self]

/-- A page before it is mapped in the child: the parent's entry is stored and the frame has one
more reference. -/
structure Lent (res : Nat → Bool) (R : Finset Nat) (K : Nat → Nat) (m m' : Memory)
    (r v : Nat) : Prop where
  grown : Grown res R m K m' (K + one (owned (m.leaf r v)))
  tables : ∀ r' ∈ R, tables m' r' = tables m r'
  leaf : ∀ r' ∈ R, ∀ v' < userPages,
    m'.leaf r' v' = if r' = r ∧ v' = v then forked (m.leaf r v) else m.leaf r' v'
  free : freeFrames m' res R (K + one (owned (m.leaf r v))) = freeFrames m res R K
  accounted : Accounted m' res R (K + one (owned (m.leaf r v)))

theorem Walked.tables_eq (h : Walked res R m K m' K r v)
    (hfree : freeFrames m' res R K = freeFrames m res R K) (hr : r ∈ R) (hr' : r' ∈ R) :
    tables m' r' = tables m r' := by
  by_cases hne : r' = r
  · subst hne
    have hroom := h.room
    rw [hfree] at hroom
    exact (eq_of_subset_of_card_le (h.grown.tables hr) (by omega)).symm
  · exact h.others r' hr' hne

/-- The kernel gets a further reference to a page. -/
theorem Accounted.refInc_grown (h : Accounted m res R K) (hpos : 0 < m.uses R K f) :
    Grown res R m K (m.refInc (f * pageSize)) (K + Pi.single f 1) ∧
      freeFrames (m.refInc (f * pageSize)) res R (K + Pi.single f 1) = freeFrames m res R K := by
  have huses : ∀ g, (m.refInc (f * pageSize)).uses R (K + Pi.single f 1) g =
      m.uses R K g + if g = f then 1 else 0 := fun g => uses_single
  refine ⟨⟨fun _ _ _ _ _ _ ht => ht, ?_, fun _ _ _ _ => rfl, rfl, ?_⟩, ?_⟩
  · intro g hg
    refine ⟨rfl, hg.1, ?_⟩
    rcases hg.2 with hu | hres
    · refine .inl ?_
      rw [huses]
      omega
    · exact .inr hres
  · intro g _ hres
    refine refcount_setRefcount_ne ?_ _
    rw [mul_pageSize_div]
    rintro rfl
    exact Bool.false_ne_true ((h.range g hpos).2.symm.trans hres)
  · ext g
    unfold freeFrames
    rw [mem_filter, mem_filter, huses]
    refine and_congr_right fun _ => and_congr_right fun _ => ?_
    by_cases hg : g = f
    · subst hg
      omega
    · rw [if_neg hg, Nat.add_zero]

theorem Accounted.lend (h : Accounted m res R K) (hr : r ∈ R) (hv : v < userPages)
    (ht : m.tab r 3 (v / 512) = some t) (hp : isSet (m.leaf r v) ptePresent = true)
    (hm' : m' = if isSet (m.leaf r v) pteNopmm then m.downgrade t (v % 512)
      else (m.downgrade t (v % 512)).refInc (physOf (m.leaf r v))) :
    Lent res R K m m' r v := by
  have huses := h.uses_setFlags hr hv ht (w := forked (m.leaf r v)) owned_forked
  have hwalk := h.walked_setLeaf hr hv ht huses
  have hacc := h.setLeaf_of_uses hr hv ht huses
  have hfree : freeFrames (m.set t (v % 512) (forked (m.leaf r v))) res R K =
      freeFrames m res R K := by
    unfold freeFrames
    rw [huses]
    rfl
  have hleaf : ∀ r' ∈ R, ∀ v' < userPages,
      (m.set t (v % 512) (forked (m.leaf r v))).leaf r' v' =
        if r' = r ∧ v' = v then forked (m.leaf r v) else m.leaf r' v' :=
    fun r' hr' v' hv' => h.leaf_setLeaf hr hv ht hr' hv'
  have htables : ∀ r' ∈ R, tables (m.set t (v % 512) (forked (m.leaf r v))) r' = tables m r' :=
    fun r' hr' => hwalk.tables_eq hfree hr hr'
  rw [downgrade_eq, ← leaf_of_tab ht] at hm'
  generalize m.set t (v % 512) (forked (m.leaf r v)) = m₁ at *
  cases hn : isSet (m.leaf r v) pteNopmm with
  | true =>
    have hK : K + one (owned (m.leaf r v)) = K := by
      rw [owned, hp, hn, Bool.not_true, Bool.and_false, if_neg Bool.false_ne_true, one_none,
        add_zero]
    rw [hn, if_pos rfl] at hm'
    subst hm'
    exact ⟨hK.symm ▸ hwalk.grown, htables, hleaf, hK.symm ▸ hfree, hK.symm ▸ hacc⟩
  | false =>
    have hK : K + one (owned (m.leaf r v)) = K + Pi.single (frameOf (m.leaf r v)) 1 := by
      rw [one_owned _ hp hn]
    have hmine : owned (m₁.leaf r v) = some (frameOf (m.leaf r v)) := by
      rw [hleaf r hr v hv, if_pos ⟨rfl, rfl⟩, owned_forked]
      exact owned_eq_some.mpr ⟨⟨hp, hn⟩, rfl⟩
    have hpos := uses_pos_of_leaf (K := K) hr hv hmine
    obtain ⟨hgrown, hfree'⟩ := hacc.refInc_grown hpos
    rw [hn, if_neg Bool.false_ne_true, physOf_eq] at hm'
    subst hm'
    rw [← hK] at hgrown hfree'
    refine ⟨hwalk.grown.trans hgrown, htables, hleaf, hfree'.trans hfree, ?_⟩
    rw [hK]
    exact hacc.refInc hpos (hacc.not_table_of_leaf hr hv hmine)

theorem clonePage_eq (ht : m.tab r 3 (v / 512) = some t)
    (hp : isSet (m.leaf r v) ptePresent = true) :
    m.clonePage dst t (v % 512) va =
      (if isSet (m.leaf r v) pteNopmm then m.downgrade t (v % 512)
        else (m.downgrade t (v % 512)).refInc (physOf (m.leaf r v))).mapPage dst va
          (physOf (m.leaf r v)) (forkFlags (m.leaf r v)) := by
  have hn : isSet (forkFlags (m.leaf r v)) pteNopmm = isSet (m.leaf r v) pteNopmm :=
    isSet_forkFlags (by decide) (by decide) (by decide)
  unfold Memory.clonePage
  dsimp only
  rw [← leaf_of_tab ht, hp, hn, if_neg (by decide)]
  split <;> rfl

/-! ## The pages in the order of the loops -/

/-- The present pages below a table, each with its page table, in the order of `cloneTable`. -/
def leavesBelow (words : Nat → Nat → Word) : Nat → Nat → Nat → Nat → List (Nat × Nat)
  | 0, pt, n, k =>
    (List.range n).flatMap fun i =>
      if isSet (words pt i) ptePresent then [(pt, 512 * k + i)] else []
  | level + 1, table, n, k =>
    (List.range n).flatMap fun i =>
      match child (words table i) with
      | none => []
      | some u => leavesBelow words level u 512 (512 * k + i)

def visit (dst : Nat) (m : Memory) (x : Nat × Nat) : Memory :=
  m.clonePage dst x.1 (x.2 % 512) (x.2 * pageSize)

/-- The tree of `r` is the one of `m₀`, and so are the pages that are present. -/
structure SameTree (m₀ m : Memory) (r : Nat) : Prop where
  tab : ∀ d k, TableKey d k → m.tab r d k = m₀.tab r d k
  present : ∀ v < userPages, isSet (m.leaf r v) ptePresent = isSet (m₀.leaf r v) ptePresent

theorem child_word (ht : m.tab r d k = some t) {i : Nat} (hi : i < 512) :
    m.tab r (d + 1) (512 * k + i) = child (m.words t i) := by
  obtain ⟨hdiv, hmod⟩ := key_div (k := k) hi
  rw [tab_succ, word_of_tab (by rw [hdiv]; exact ht), hmod]
  rfl

/-- `leavesBelow` has the present pages whose key falls in the range of the loop. -/
theorem mem_leavesBelow {level n : Nat} (hd : d + level = 3) (ht : m.tab r d k = some t)
    (hn : n ≤ 512) {x : Nat × Nat} :
    x ∈ leavesBelow m.words level t n k ↔
      m.tab r 3 (x.2 / 512) = some x.1 ∧ isSet (m.leaf r x.2) ptePresent = true ∧
        512 * k ≤ x.2 / 512 ^ level ∧ x.2 / 512 ^ level < 512 * k + n := by
  obtain ⟨pt, v⟩ := x
  induction level generalizing d k t n with
  | zero =>
    obtain rfl : d = 3 := hd
    unfold leavesBelow
    rw [List.mem_flatMap, Nat.pow_zero, Nat.div_one]
    constructor
    · rintro ⟨i, hi, hx⟩
      have hi' := List.mem_range.mp hi
      obtain ⟨hdiv, hmod⟩ := key_div (k := k) (i := i) (by omega)
      split at hx
      next hp =>
        obtain ⟨rfl, rfl⟩ := Prod.mk.inj (List.mem_singleton.mp hx)
        have htab : m.tab r 3 ((512 * k + i) / 512) = some pt := by
          rw [hdiv]
          exact ht
        refine ⟨htab, ?_, by omega, by omega⟩
        rw [leaf_of_tab htab, hmod]
        exact hp
      · cases hx
    · rintro ⟨htab, hp, hlo, hhi⟩
      dsimp only at htab hp hlo hhi
      obtain ⟨hdiv, hmod⟩ := key_div (k := k) (i := v - 512 * k) (by omega)
      rw [Nat.add_sub_cancel' hlo] at hdiv hmod
      rw [hdiv, ht] at htab
      obtain rfl : t = pt := Option.some.inj htab
      rw [leaf_of_tab (by rw [hdiv]; exact ht), hmod] at hp
      refine ⟨v - 512 * k, List.mem_range.mpr (by omega), ?_⟩
      rw [if_pos hp, Nat.add_sub_cancel' hlo]
      exact List.mem_singleton_self _
  | succ level ih =>
    unfold leavesBelow
    rw [List.mem_flatMap]
    have hpow : v / 512 ^ (level + 1) = v / 512 ^ level / 512 := by
      rw [Nat.pow_succ, Nat.div_div_eq_div_mul]
    constructor
    · rintro ⟨i, hi, hx⟩
      have hi' := List.mem_range.mp hi
      cases hc : child (m.words t i) with
      | none =>
        rw [hc] at hx
        cases hx
      | some u =>
        rw [hc] at hx
        have hnext := (child_word ht (i := i) (by omega)).trans hc
        obtain ⟨h1, h2, h3, h4⟩ :=
          (ih (d := d + 1) (by omega) hnext (Nat.le_refl 512)).mp hx
        dsimp only at h1 h2 h3 h4
        refine ⟨h1, h2, ?_, ?_⟩
        · dsimp only
          rw [hpow]
          omega
        · dsimp only
          rw [hpow]
          omega
    · rintro ⟨htab, hp, hlo, hhi⟩
      dsimp only at htab hp hlo hhi
      have hkey : 512 * k + (v / 512 ^ (level + 1) - 512 * k) = v / 512 ^ (level + 1) :=
        Nat.add_sub_cancel' hlo
      have hnext := child_word ht (i := v / 512 ^ (level + 1) - 512 * k) (by omega)
      rw [hkey] at hnext
      refine ⟨v / 512 ^ (level + 1) - 512 * k, List.mem_range.mpr (by omega), ?_⟩
      cases hc : child (m.words t (v / 512 ^ (level + 1) - 512 * k)) with
      | none =>
        -- a page that is present has all tables on its way
        have hup : v / 512 / 512 ^ level = v / 512 ^ (level + 1) := by
          rw [Nat.pow_succ', Nat.div_div_eq_div_mul]
        have hno := Radix.tab_eq_none (hnext.trans hc) level hup
        rw [show d + 1 + level = 3 by omega] at hno
        rw [Memory.tab, hno] at htab
        cases htab
      | some u =>
        rw [hkey] at *
        refine (ih (d := d + 1) (by omega) (hnext.trans hc) (Nat.le_refl 512)).mpr
          ⟨htab, hp, ?_, ?_⟩
        · dsimp only
          rw [hpow]
          omega
        · dsimp only
          rw [hpow]
          omega

/-- The pages are visited in increasing order. -/
theorem sorted_leavesBelow {level n : Nat} (hd : d + level = 3) (ht : m.tab r d k = some t)
    (hn : n ≤ 512) : (leavesBelow m.words level t n k).Pairwise fun x y => x.2 < y.2 := by
  induction level generalizing d k t n with
  | zero =>
    unfold leavesBelow
    rw [List.pairwise_flatMap]
    constructor
    · intro i _
      split
      · exact List.pairwise_singleton _ _
      · exact List.Pairwise.nil
    · refine List.pairwise_lt_range.imp ?_
      intro i j hij x hx y hy
      split at hx
      · split at hy
        · rw [List.mem_singleton.mp hx, List.mem_singleton.mp hy]
          omega
        · cases hy
      · cases hx
  | succ level ih =>
    unfold leavesBelow
    rw [List.pairwise_flatMap]
    constructor
    · intro i hi
      have hi' := List.mem_range.mp hi
      cases hc : child (m.words t i) with
      | none => exact List.Pairwise.nil
      | some u =>
        exact ih (d := d + 1) (by omega) ((child_word ht (by omega)).trans hc)
          (Nat.le_refl 512)
    · have hrange : ∀ i < n, ∀ x, (x ∈ match child (m.words t i) with
          | none => []
          | some u => leavesBelow m.words level u 512 (512 * k + i)) →
          512 * (512 * k + i) ≤ x.2 / 512 ^ level ∧
            x.2 / 512 ^ level < 512 * (512 * k + i) + 512 := by
        intro i hi x hx
        cases hc : child (m.words t i) with
        | none =>
          rw [hc] at hx
          cases hx
        | some u =>
          rw [hc] at hx
          exact ((mem_leavesBelow (d := d + 1) (by omega)
            ((child_word ht (by omega)).trans hc) (Nat.le_refl 512)).mp hx).2.2
      refine List.Pairwise.imp_of_mem ?_ List.pairwise_lt_range
      intro i j hi hj hij x hx y hy
      have hx' := (hrange i (List.mem_range.mp hi) x hx).2
      have hy' := (hrange j (List.mem_range.mp hj) y hy).1
      have hlt : x.2 / 512 ^ level < y.2 / 512 ^ level := by omega
      exact Nat.lt_of_not_le fun hle => Nat.not_lt.mpr (Nat.div_le_div_right hle) hlt

/-- Whether a word leads on, read in a later memory. -/
theorem SameTree.child_eq (h : SameTree m₀ m r) (hd : d < 3) (ht : m₀.tab r d k = some t)
    {i : Nat} (hi : i < 512) (hk : (d, 512 * k + i) ∈ slots) :
    child (m.words t i) = child (m₀.words t i) := by
  have hkey := tableKey_of_slot hk
  rw [(key_div (k := k) hi).1] at hkey
  rw [← child_word ht hi, ← h.tab _ _ (tableKey_succ hk hd)]
  exact (child_word ((h.tab d k hkey).trans ht) hi).symm

theorem SameTree.present_eq (h : SameTree m₀ m r) (ht : m₀.tab r 3 k = some t) {i : Nat}
    (hi : i < 512) (hk : (3, 512 * k + i) ∈ slots) :
    isSet (m.words t i) ptePresent = isSet (m₀.words t i) ptePresent := by
  obtain ⟨hdiv, hmod⟩ := key_div (k := k) hi
  have hkey := tableKey_of_slot hk
  rw [hdiv] at hkey
  have hpres := h.present _ (leaf_mem_slots.mp hk)
  rw [leaf_of_tab (by rw [hdiv]; exact (h.tab 3 k hkey).trans ht),
    leaf_of_tab (by rw [hdiv]; exact ht), hmod] at hpres
  exact hpres

theorem slots_below {n i : Nat} (hk : ∀ i < n, (d, 512 * k + i) ∈ slots) (hd : d < 3) (hi : i < n)
    {j : Nat} (hj : j < 512) : (d + 1, 512 * (512 * k + i) + j) ∈ slots := by
  have hslot := mem_slots.mp (hk i hi)
  rw [mem_slots, Nat.pow_succ]
  refine ⟨by omega, ?_⟩
  have hle : 512 * (512 * k + i + 1) ≤ 512 * (256 * 512 ^ d) := Nat.mul_le_mul_left _ hslot.2
  omega

/-- The loops over a table are one loop over the pages that were present at its start, as long as
no visit changes the parent. -/
theorem cloneTable_eq {I : Memory → Prop} (hI : ∀ m, I m → SameTree m₀ m r)
    (hvisit : ∀ m, I m → ∀ x : Nat × Nat, x.2 < userPages → m₀.tab r 3 (x.2 / 512) = some x.1 →
      isSet (m₀.leaf r x.2) ptePresent = true → I (visit dst m x))
    {level n : Nat} (hd : d + level = 3) (ht : m₀.tab r d k = some t) (hn : n ≤ 512)
    (hk : ∀ i < n, (d, 512 * k + i) ∈ slots) (hm : I m) :
    cloneTable dst level m t n (k * 512 ^ (level + 1) * pageSize) =
        (leavesBelow m₀.words level t n k).foldl (visit dst) m ∧
      I (cloneTable dst level m t n (k * 512 ^ (level + 1) * pageSize)) := by
  induction level generalizing d k t n m with
  | zero =>
    obtain rfl : d = 3 := hd
    have hva : ∀ i, k * 512 ^ (0 + 1) * pageSize + i * 2 ^ 12 = (512 * k + i) * pageSize := by
      intro i
      unfold pageSize
      omega
    unfold cloneTable leavesBelow
    have hbody : ∀ m, I m → ∀ i ∈ List.range n,
        m.clonePage dst t i (k * 512 ^ (0 + 1) * pageSize + i * 2 ^ 12) =
          (if isSet (m₀.words t i) ptePresent then [(t, 512 * k + i)] else []).foldl
            (visit dst) m := by
      intro m hm i hi
      have hi' := List.mem_range.mp hi
      rw [hva, ← (hI m hm).present_eq ht (by omega) (hk i hi')]
      split
      · show _ = m.clonePage dst t ((512 * k + i) % 512) ((512 * k + i) * pageSize)
        rw [(key_div (k := k) (i := i) (by omega)).2]
      next hp =>
        rw [Bool.not_eq_true] at hp
        exact if_pos hp
    refine foldl_flatMap _ hbody ?_ hm
    intro m hm i hi
    have hi' := List.mem_range.mp hi
    rw [hbody m hm i hi]
    split
    next hp =>
      obtain ⟨hdiv, hmod⟩ := key_div (k := k) (i := i) (by omega)
      have htab : m₀.tab r 3 ((512 * k + i) / 512) = some t := by
        rw [hdiv]
        exact ht
      refine hvisit m hm (t, 512 * k + i) (leaf_mem_slots.mp (hk i hi')) htab ?_
      rw [leaf_of_tab htab, hmod]
      exact hp
    · exact hm
  | succ level ih =>
    have hva : ∀ i, k * 512 ^ (level + 1 + 1) * pageSize + i * 2 ^ (12 + 9 * (level + 1)) =
        (512 * k + i) * 512 ^ (level + 1) * pageSize := by
      intro i
      have hpow : 2 ^ (12 + 9 * (level + 1)) = 512 ^ (level + 1) * pageSize := by
        rw [Nat.pow_add, Nat.pow_mul, Nat.mul_comm]
        rfl
      rw [hpow, Nat.pow_succ 512 (level + 1), Nat.add_mul, Nat.add_mul, Nat.mul_assoc i]
      congr 2
      rw [Nat.mul_comm 512 k, Nat.mul_assoc, Nat.mul_comm 512]
    unfold cloneTable leavesBelow
    have hbody : ∀ m, I m → ∀ i ∈ List.range n,
        (if isSet (m.words t i) ptePresent then
          cloneTable dst level m (frameOf (m.words t i)) 512
            (k * 512 ^ (level + 1 + 1) * pageSize + i * 2 ^ (12 + 9 * (level + 1)))
        else m) =
          (match child (m₀.words t i) with
            | none => []
            | some u => leavesBelow m₀.words level u 512 (512 * k + i)).foldl (visit dst) m ∧
        I (if isSet (m.words t i) ptePresent then
          cloneTable dst level m (frameOf (m.words t i)) 512
            (k * 512 ^ (level + 1 + 1) * pageSize + i * 2 ^ (12 + 9 * (level + 1)))
        else m) := by
      intro m hm i hi
      have hi' := List.mem_range.mp hi
      have hchild := (hI m hm).child_eq (by omega) ht (by omega) (hk i hi')
      rw [hva]
      cases hc : child (m₀.words t i) with
      | none =>
        rw [hc, child_eq_none] at hchild
        rw [hchild, if_neg Bool.false_ne_true]
        exact ⟨rfl, hm⟩
      | some u =>
        rw [hc, child_eq_some] at hchild
        rw [hchild.1, hchild.2, if_pos rfl]
        refine ih (d := d + 1) (by omega) ((child_word ht (by omega)).trans hc)
          (Nat.le_refl 512) ?_ hm
        intro j hj
        exact slots_below hk (by omega) hi' hj
    exact foldl_flatMap _ (fun m hm i hi => (hbody m hm i hi).1)
      (fun m hm i hi => (hbody m hm i hi).2) hm

/-! ## After a number of pages -/

/-- The pages of a set whose way is not among the tables of the child. -/
def lost (m : Memory) (dst : Nat) (done : Finset Nat) : Finset Nat :=
  done.filter fun v => ¬wayTo v ⊆ tables m dst

/-- The references that the lost pages leave behind. -/
def lostRefs (m₀ : Memory) (r : Nat) (pages : Finset Nat) (f : Nat) : Nat :=
  ∑ v ∈ pages, one (owned (m₀.leaf r v)) f

/-- Memory after the pages in `done` have been visited, in increasing order, from `m₀` on. -/
structure Cloning (res : Nat → Bool) (R : Finset Nat) (K : Nat → Nat) (m₀ m : Memory)
    (r dst : Nat) (done : Finset Nat) : Prop where
  accounted : Accounted m res R (K + lostRefs m₀ r (lost m dst done))
  grown : Grown res R m₀ K m (K + lostRefs m₀ r (lost m dst done))
  tables : ∀ r' ∈ R, r' ≠ dst → tables m r' = tables m₀ r'
  leaf : ∀ r' ∈ R, r' ≠ dst → ∀ v < userPages,
    m.leaf r' v = if r' = r ∧ v ∈ done then forked (m₀.leaf r v) else m₀.leaf r' v
  child : ∀ v < userPages,
    m.leaf dst v = if v ∈ done \ lost m dst done then forked (m₀.leaf r v) else 0#64
  within : Vm.tables m dst ⊆ done.biUnion wayTo
  full : ∀ v ∈ lost m dst done,
    freeFrames m res R (K + lostRefs m₀ r (lost m dst done)) = ∅ ∧
      Vm.tables m dst ⊆ (done.filter (· ≤ v)).biUnion wayTo
  room : (freeFrames m res R (K + lostRefs m₀ r (lost m dst done))).card + (Vm.tables m dst).card =
    (freeFrames m₀ res R K).card

theorem lost_empty (m : Memory) (dst : Nat) : lost m dst ∅ = ∅ := filter_empty _

theorem lostRefs_empty (m₀ : Memory) (r : Nat) : lostRefs m₀ r ∅ = 0 := by
  funext f
  exact sum_empty

/-- Before the first page. -/
theorem Cloning.start (h : Accounted m₀ res R K) (he : EmptyHalf m₀ dst) :
    Cloning res R K m₀ m₀ r dst ∅ := by
  have hlost := lost_empty m₀ dst
  have hK : K + lostRefs m₀ r (lost m₀ dst ∅) = K := by
    rw [hlost, lostRefs_empty, add_zero]
  refine ⟨?_, ?_, fun _ _ _ => rfl, ?_, ?_, ?_, ?_, ?_⟩
  · rw [hK]
    exact h
  · rw [hK]
    exact Grown.refl
  · intro r' _ _ v _
    rw [if_neg fun hc => notMem_empty v hc.2]
  · intro v hv
    rw [if_neg fun hc => notMem_empty v (mem_sdiff.mp hc).1, he.leaf hv]
  · rw [he.tables]
    exact empty_subset _
  · intro v hv
    rw [hlost] at hv
    cases hv
  · rw [hK, he.tables, card_empty, Nat.add_zero]

/-- Tables that are added on the way to one page, when there is room for them. -/
theorem Walked.tables_of_full (h : Walked res R m K m' K' dst v) (hdst : dst ∈ R)
    (hfull : freeFrames m res R K = ∅) : tables m' dst = tables m dst := by
  have hroom := h.room
  rw [hfull, card_empty, Nat.zero_add] at hroom
  exact (eq_of_subset_of_card_le (h.grown.tables hdst) (by omega)).symm

theorem pageOf_mul (hv : v < userPages) : pageOf (v * pageSize) = v := by
  have hv' : v < 256 * 512 ^ 3 := hv
  unfold pageOf
  rw [mul_pageSize_div]
  exact Nat.mod_eq_of_lt (by omega)

/-- A visit lends the page and tries to store the entry in the child. -/
theorem Accounted.visit_cases (h : Accounted m res R K) (hr : r ∈ R) (hdst : dst ∈ R)
    (hv : v < userPages) (ht : m.tab r 3 (v / 512) = some t)
    (hp : isSet (m.leaf r v) ptePresent = true) :
    ∃ m₁, Lent res R K m m₁ r v ∧
      (Mapped res R K m₁ (visit dst m (t, v)) dst v (forked (m.leaf r v)) ∨
        Dropped res R (K + one (owned (m.leaf r v))) m₁ (visit dst m (t, v)) dst v) := by
  have hl := h.lend hr hv ht hp rfl
  have heq : visit dst m (t, v) = _ := clonePage_eq ht hp
  rw [heq]
  generalize (if isSet (m.leaf r v) pteNopmm then m.downgrade t (v % 512)
    else (m.downgrade t (v % 512)).refInc (physOf (m.leaf r v))) = m₁ at hl ⊢
  have hforked : owned (entry (physOf (m.leaf r v)) (forkFlags (m.leaf r v))) =
      owned (m.leaf r v) := owned_forked
  have hacc := hl.accounted
  rw [← hforked] at hacc
  have hpage := pageOf_mul hv
  have hva : pageOf (v * pageSize) < userPages := hpage.symm ▸ hv
  have hmap := hacc.mapPage hdst hva
  rw [hpage, hforked] at hmap
  exact ⟨m₁, hl, hmap⟩

/-- The entry of a page that is still to be visited. -/
theorem Cloning.leaf_next {done : Finset Nat} (h : Cloning res R K m₀ m r dst done) (hr : r ∈ R)
    (hne : r ≠ dst) (hv : v < userPages) (hdone : ∀ u ∈ done, u < v) :
    m.leaf r v = m₀.leaf r v ∧ m.leaf dst v = 0#64 := by
  have hnot : v ∉ done := fun hc => Nat.lt_irrefl v (hdone v hc)
  constructor
  · rw [h.leaf r hr hne v hv, if_neg fun hc => hnot hc.2]
  · rw [h.child v hv, if_neg fun hc => hnot (mem_sdiff.mp hc).1]

section

variable {done : Finset Nat} (h : Cloning res R K m₀ m r dst done) (hr : r ∈ R) (hdst : dst ∈ R)
  (hne : r ≠ dst) (hv : v < userPages)

include h hdst

/-- Which pages are lost is settled when they are visited. -/
theorem Cloning.lost_eq {K₁ : Nat → Nat} {m₁ : Memory}
    (htables : Vm.tables m₁ dst = Vm.tables m dst)
    (hfree : freeFrames m₁ res R K₁ =
      freeFrames m res R (K + lostRefs m₀ r (lost m dst done)))
    (hwalk : Walked res R m₁ K₁ m' K' dst v) : lost m' dst done = lost m dst done := by
  ext u
  unfold lost
  rw [mem_filter, mem_filter]
  refine and_congr_right fun hu => ?_
  constructor
  · intro hno hyes
    refine hno (hyes.trans ?_)
    rw [← htables]
    exact hwalk.grown.tables hdst
  · intro hno hyes
    have hempty := (h.full u (mem_filter.mpr ⟨hu, hno⟩)).1
    rw [hwalk.tables_of_full hdst (hfree.trans hempty), htables] at hyes
    exact hno hyes

include hr hne hv

omit hdst in
/-- The entries of the parent and of the others, once the page is lent. -/
theorem Cloning.leaf_lent (hdone : ∀ u ∈ done, u < v) {m₁ : Memory} {r' u : Nat}
    (hl : Lent res R (K + lostRefs m₀ r (lost m dst done)) m m₁ r v) (hr' : r' ∈ R)
    (hr'd : r' ≠ dst) (hu : u < userPages) : m₁.leaf r' u =
      if r' = r ∧ u ∈ insert v done then forked (m₀.leaf r u) else m₀.leaf r' u := by
  rw [hl.leaf r' hr' u hu, h.leaf r' hr' hr'd u hu, (h.leaf_next hr hne hv hdone).1]
  by_cases hru : r' = r ∧ u = v
  · rw [if_pos hru, if_pos ⟨hru.1, hru.2 ▸ mem_insert_self ..⟩, hru.2]
  · rw [if_neg hru]
    refine if_congr ?_ rfl rfl
    rw [mem_insert]
    exact ⟨fun hc => ⟨hc.1, .inr hc.2⟩,
      fun hc => ⟨hc.1, hc.2.resolve_left fun hu => hru ⟨hc.1, hu⟩⟩⟩

/-- The entry is stored in the child. -/
theorem Cloning.mapped (hdone : ∀ u ∈ done, u < v) {m₁ : Memory}
    (hl : Lent res R (K + lostRefs m₀ r (lost m dst done)) m m₁ r v)
    (hm : Mapped res R (K + lostRefs m₀ r (lost m dst done)) m₁ m' dst v
      (forked (m.leaf r v))) : Cloning res R K m₀ m' r dst (insert v done) := by
  obtain ⟨hleaf, hzero⟩ := h.leaf_next hr hne hv hdone
  have hnot : v ∉ done := fun hc => Nat.lt_irrefl v (hdone v hc)
  have hold : m₁.leaf dst v = 0#64 := by
    rw [hl.leaf dst hdst v hv, if_neg fun hc => hne hc.1.symm, hzero]
  obtain ⟨hwalk, hway, hleaves, -, hacc⟩ := hm
  rw [hold, owned_zero, one_none, add_zero, owned_forked] at hwalk
  rw [hold, owned_zero, one_none, add_zero] at hacc
  have hlost : lost m' dst (insert v done) = lost m dst done := by
    rw [← h.lost_eq hdst (hl.tables dst hdst) hl.free hwalk]
    exact filter_insert .. |>.trans (if_neg fun hno => hno hway)
  have hwithin : Vm.tables m' dst ⊆ Vm.tables m dst ∪ wayTo v := by
    rw [← hl.tables dst hdst]
    exact hwalk.within
  refine ⟨?_, ?_, ?_, ?_, ?_, ?_, ?_, ?_⟩
  · rw [hlost]
    exact hacc
  · rw [hlost]
    exact (h.grown.trans hl.grown).trans hwalk.grown
  · intro r' hr' hr'd
    rw [hwalk.others r' hr' hr'd, hl.tables r' hr', h.tables r' hr' hr'd]
  · intro r' hr' hr'd u hu
    rw [hleaves r' hr' u hu, if_neg fun hc => hr'd hc.1]
    exact h.leaf_lent hr hne hv hdone hl hr' hr'd hu
  · intro u hu
    rw [hleaves dst hdst u hu, hlost, hleaf]
    by_cases huv : u = v
    · have hmem : v ∈ insert v done \ lost m dst done :=
        mem_sdiff.mpr ⟨mem_insert_self ..,
          fun hc => hnot (mem_filter.mp hc).1⟩
      rw [if_pos ⟨rfl, huv⟩, huv, if_pos hmem]
    · rw [if_neg fun hc => huv hc.2, hl.leaf dst hdst u hu, if_neg fun hc => hne hc.1.symm,
        h.child u hu]
      refine if_congr ?_ rfl rfl
      rw [mem_sdiff, mem_sdiff, mem_insert]
      exact and_congr_left fun _ => ⟨.inr, fun hc => hc.resolve_left huv⟩
  · refine hwithin.trans ?_
    rw [biUnion_insert, union_comm]
    exact union_subset_union_right h.within
  · intro u hu
    rw [hlost] at hu ⊢
    obtain ⟨hempty, hsub⟩ := h.full u hu
    have hcard := hwalk.room
    rw [hl.free, hempty, hl.tables dst hdst, card_empty, Nat.zero_add] at hcard
    have hsame := hwalk.tables_of_full hdst (hl.free.trans hempty)
    rw [hsame, hl.tables dst hdst] at hcard ⊢
    refine ⟨card_eq_zero.mp (by omega), hsub.trans ?_⟩
    exact biUnion_subset_biUnion_of_subset_left _
      (filter_subset_filter _ (subset_insert ..))
  · rw [hlost, hwalk.room, hl.free, hl.tables dst hdst]
    exact h.room

/-- The entry could not be stored. -/
theorem Cloning.dropped (hdone : ∀ u ∈ done, u < v) {m₁ : Memory}
    (hl : Lent res R (K + lostRefs m₀ r (lost m dst done)) m m₁ r v)
    (hm : Dropped res R (K + lostRefs m₀ r (lost m dst done) + one (owned (m.leaf r v))) m₁ m'
      dst v) : Cloning res R K m₀ m' r dst (insert v done) := by
  obtain ⟨hleaf, hzero⟩ := h.leaf_next hr hne hv hdone
  have hnot : v ∉ done := fun hc => Nat.lt_irrefl v (hdone v hc)
  obtain ⟨hwalk, hway, hleaves, -, hacc, hfull⟩ := hm
  have hlost : lost m' dst (insert v done) = insert v (lost m dst done) := by
    rw [← h.lost_eq hdst (hl.tables dst hdst) hl.free hwalk]
    exact filter_insert .. |>.trans (if_pos hway)
  have hK : K + lostRefs m₀ r (lost m' dst (insert v done)) =
      K + lostRefs m₀ r (lost m dst done) + one (owned (m.leaf r v)) := by
    have hout : v ∉ lost m dst done := fun hc => hnot (mem_filter.mp hc).1
    rw [hlost, hleaf]
    funext f
    simp only [Pi.add_apply, lostRefs, sum_insert hout]
    omega
  have hwithin : Vm.tables m' dst ⊆ (insert v done).biUnion wayTo := by
    refine hwalk.within.trans ?_
    rw [hl.tables dst hdst, biUnion_insert, union_comm]
    exact union_subset_union_right h.within
  refine ⟨?_, ?_, ?_, ?_, ?_, hwithin, ?_, ?_⟩
  · rw [hK]
    exact hacc
  · rw [hK]
    exact (h.grown.trans hl.grown).trans hwalk.grown
  · intro r' hr' hr'd
    rw [hwalk.others r' hr' hr'd, hl.tables r' hr', h.tables r' hr' hr'd]
  · intro r' hr' hr'd u hu
    rw [hleaves r' hr' u hu]
    exact h.leaf_lent hr hne hv hdone hl hr' hr'd hu
  · intro u hu
    rw [hleaves dst hdst u hu, hlost, hl.leaf dst hdst u hu, if_neg fun hc => hne hc.1.symm,
      h.child u hu]
    refine if_congr ?_ rfl rfl
    rw [mem_sdiff, mem_sdiff, mem_insert, mem_insert, not_or]
    constructor
    · rintro ⟨hd, hl⟩
      exact ⟨.inr hd, fun hc => hnot (hc ▸ hd), hl⟩
    · rintro ⟨hd, huv, hl⟩
      exact ⟨hd.resolve_left huv, hl⟩
  · intro u hu
    rw [hK]
    refine ⟨hfull, ?_⟩
    rw [hlost, mem_insert] at hu
    rcases hu with rfl | hu
    · -- every page visited so far comes before this one
      have hall : (insert u done).filter (· ≤ u) = insert u done := by
        refine filter_true_of_mem fun x hx => ?_
        rcases mem_insert.mp hx with rfl | hx
        · exact Nat.le_refl _
        · exact Nat.le_of_lt (hdone x hx)
      rw [hall]
      exact hwithin
    · obtain ⟨hempty, hsub⟩ := h.full u hu
      rw [hwalk.tables_of_full hdst (hl.free.trans hempty), hl.tables dst hdst]
      exact hsub.trans (biUnion_subset_biUnion_of_subset_left _
        (filter_subset_filter _ (subset_insert ..)))
  · rw [hK, hwalk.room, hl.free, hl.tables dst hdst]
    exact h.room

/-- One more page. -/
theorem Cloning.visit (hdone : ∀ u ∈ done, u < v) (ht : m₀.tab r 3 (v / 512) = some t)
    (hp : isSet (m₀.leaf r v) ptePresent = true) :
    Cloning res R K m₀ (visit dst m (t, v)) r dst (insert v done) := by
  obtain ⟨hleaf, -⟩ := h.leaf_next hr hne hv hdone
  have hkey := tableKey_of_slot (leaf_mem_slots.mpr hv)
  have ht' := h.grown.tab r hr 3 (v / 512) t hkey ht
  obtain ⟨m₁, hl, hm | hm⟩ := h.accounted.visit_cases hr hdst hv ht' (hleaf ▸ hp)
  · exact h.mapped hr hdst hne hv hdone hl hm
  · exact h.dropped hr hdst hne hv hdone hl hm

end

/-! ## After all pages -/

@[irreducible] def presentPages (m : Memory) (r : Nat) : Finset Nat :=
  (range userPages).filter fun v => isSet (m.leaf r v) ptePresent

theorem mem_presentPages :
    v ∈ presentPages m r ↔ v < userPages ∧ isSet (m.leaf r v) ptePresent = true := by
  unfold presentPages
  rw [mem_filter, mem_range]

/-- An address space that has no new tables has the same tables. -/
theorem Grown.tab_eq {K' : Nat → Nat} (h : Grown res R m K m' K') (hr : r ∈ R)
    (ht : Vm.tables m' r = Vm.tables m r) (hk : TableKey d k) :
    m'.tab r d k = m.tab r d k := by
  cases hm : m.tab r d k with
  | some t => exact h.tab r hr d k t hk hm
  | none =>
    cases d with
    | zero => cases hm
    | succ d =>
      cases hm' : m'.tab r (d + 1) k with
      | none => rfl
      | some t =>
        have hmem : (d, k) ∈ Vm.tables m' r := by
          rw [mem_tables, hm']
          exact ⟨slot_of_tableKey hk, hk.1, rfl⟩
        rw [ht, mem_tables, hm] at hmem
        cases hmem.2.2

/-- A visit leaves the tree of the parent as it is. -/
theorem SameTree.visit (hs : SameTree m₀ m r) (h : Accounted m res R K) (hr : r ∈ R)
    (hdst : dst ∈ R) (hne : r ≠ dst) {x : Nat × Nat} (hv : x.2 < userPages)
    (ht : m₀.tab r 3 (x.2 / 512) = some x.1) (hp : isSet (m₀.leaf r x.2) ptePresent = true) :
    SameTree m₀ (visit dst m x) r ∧ ∃ K', Accounted (Vm.visit dst m x) res R K' := by
  obtain ⟨t, v⟩ := x
  dsimp only at hv ht hp
  have hkey := tableKey_of_slot (leaf_mem_slots.mpr hv)
  have ht' := (hs.tab 3 (v / 512) hkey).trans ht
  have hp' := (hs.present v hv).trans hp
  obtain ⟨m₁, hl, hmap⟩ := h.visit_cases hr hdst hv ht' hp'
  generalize Vm.visit dst m (t, v) = m' at hmap ⊢
  have hstep : ∀ K', Walked res R m₁ (K + one (owned (m.leaf r v))) m' K' dst v →
      (∀ u < userPages, m'.leaf r u = m₁.leaf r u) → SameTree m₀ m' r := by
    intro K' hwalk hleaf
    constructor
    · intro d k hk
      have htab := (hl.grown.trans hwalk.grown).tab_eq hr
        ((hwalk.others r hr hne).trans (hl.tables r hr)) hk
      exact htab.trans (hs.tab d k hk)
    · intro u hu
      rw [hleaf u hu, hl.leaf r hr u hu, ← hs.present u hu]
      split
      next hc => rw [present_forked, hc.2]
      · rfl
  rcases hmap with hm | hm
  · have hwalk := hm.walked
    rw [owned_forked] at hwalk
    refine ⟨hstep _ hwalk ?_, _, hm.accounted⟩
    intro u hu
    rw [hm.leaf r hr u hu, if_neg fun hc => hne hc.1]
  · exact ⟨hstep _ hm.walked fun u hu => hm.leaf r hr u hu, _, hm.accounted⟩

/-- A list of pages in increasing order is visited. -/
theorem Cloning.foldl {done : Finset Nat} (h : Cloning res R K m₀ m r dst done) (hr : r ∈ R)
    (hdst : dst ∈ R) (hne : r ≠ dst) {l : List (Nat × Nat)}
    (hl : ∀ x ∈ l, x.2 < userPages ∧ m₀.tab r 3 (x.2 / 512) = some x.1 ∧
      isSet (m₀.leaf r x.2) ptePresent = true)
    (hsort : l.Pairwise fun x y => x.2 < y.2) (hdone : ∀ u ∈ done, ∀ x ∈ l, u < x.2) :
    Cloning res R K m₀ (l.foldl (Vm.visit dst) m) r dst (done ∪ (l.map Prod.snd).toFinset) := by
  induction l generalizing m done with
  | nil =>
    rw [List.map_nil, List.toFinset_nil, union_empty]
    exact h
  | cons x l ih =>
    obtain ⟨hv, ht, hp⟩ := hl x List.mem_cons_self
    rw [List.pairwise_cons] at hsort
    have hx := h.visit hr hdst hne hv (fun u hu => hdone u hu x List.mem_cons_self) ht hp
    have hrest := ih hx (fun y hy => hl y (List.mem_cons_of_mem x hy)) hsort.2 ?_
    · rw [List.map_cons, List.toFinset_cons, union_insert, ← insert_union]
      exact hrest
    · intro u hu y hy
      rcases mem_insert.mp hu with rfl | hu
      · exact hsort.1 y hy
      · exact hdone u hu y (List.mem_cons_of_mem x hy)

/-- The loops of `vmm_clone_user_pagetable`. -/
theorem Accounted.cloneTable (h : Accounted m₀ res R K) (hr : r ∈ R) (hdst : dst ∈ R)
    (hne : r ≠ dst) (he : EmptyHalf m₀ dst) :
    Cloning res R K m₀ (cloneTable dst 3 m₀ r 256 0) r dst (presentPages m₀ r) := by
  have hroot : m₀.tab r 0 0 = some r := rfl
  let I : Memory → Prop := fun m => SameTree m₀ m r ∧ ∃ K', Accounted m res R K'
  have hstart : I m₀ := ⟨⟨fun _ _ _ => rfl, fun _ _ => rfl⟩, K, h⟩
  have hvisit : ∀ m, I m → ∀ x : Nat × Nat, x.2 < userPages →
      m₀.tab r 3 (x.2 / 512) = some x.1 → isSet (m₀.leaf r x.2) ptePresent = true →
      I (visit dst m x) := by
    rintro m ⟨hs, K', hacc⟩ x hv ht hp
    exact hs.visit hacc hr hdst hne hv ht hp
  have hk : ∀ i < 256, (0, 512 * 0 + i) ∈ slots := fun i hi =>
    mem_slots.mpr ⟨by decide, by omega⟩
  have heq := (cloneTable_eq (fun m hm => hm.1) hvisit (Nat.zero_add 3) hroot (by decide) hk
    hstart).1
  have hmem : ∀ x : Nat × Nat, x ∈ leavesBelow m₀.words 3 r 256 0 ↔
      m₀.tab r 3 (x.2 / 512) = some x.1 ∧ isSet (m₀.leaf r x.2) ptePresent = true ∧
        x.2 < userPages := by
    intro x
    rw [mem_leavesBelow rfl hroot (by decide)]
    refine and_congr_right fun _ => and_congr_right fun _ => ?_
    rw [Nat.mul_zero, Nat.zero_add, Nat.div_lt_iff_lt_mul (by decide)]
    exact ⟨fun hc => hc.2, fun hc => ⟨Nat.zero_le _, hc⟩⟩
  have hall := (Cloning.start (r := r) h he).foldl hr hdst hne
    (fun x hx => ⟨((hmem x).mp hx).2.2, ((hmem x).mp hx).1, ((hmem x).mp hx).2.1⟩)
    (sorted_leavesBelow rfl hroot (by decide)) (fun u hu => absurd hu (notMem_empty u))
  have hset : ∅ ∪ ((leavesBelow m₀.words 3 r 256 0).map Prod.snd).toFinset =
      presentPages m₀ r := by
    ext v
    rw [empty_union, List.mem_toFinset, List.mem_map, mem_presentPages]
    constructor
    · rintro ⟨x, hx, rfl⟩
      exact ⟨((hmem x).mp hx).2.2, ((hmem x).mp hx).2.1⟩
    · rintro ⟨hv, hp⟩
      cases ht : m₀.tab r 3 (v / 512) with
      | none =>
        rw [leaf_of_none ht, isSet_zero] at hp
        cases hp
      | some t => exact ⟨(t, v), (hmem (t, v)).mpr ⟨ht, hp, hv⟩, rfl⟩
  rw [hset, ← heq, Nat.zero_mul, Nat.zero_mul] at hall
  exact hall

end

end Aeryk.Vm
