import Mathlib.Algebra.BigOperators.Group.Finset.Basic
import Mathlib.Algebra.BigOperators.Intervals
import Aeryk.Lib.Loops
import Aeryk.Vm.Faults

/-!
# Making and destroying address spaces

`vmm_new_user_pagetable` turns a frame of the kernel into a root.  What
`vmm_destroy_user_pagetable` passes to `pmm_free_page` is `freedTable`, exactly what the tree
holds: each of the frames as often as entries of the tree point to it, and each table after
everything below it.
-/

namespace Aeryk.Vm

open Finset Function Lib Mem Mem.Pmm Memory

section

variable {m m' : Memory} {res : Nat → Bool} {R : Finset Nat} {K : Nat → Nat}
  {r r' d k t f v va : Nat} {w : Word}

/-! ## `vmm_new_user_pagetable` -/

def EmptyHalf (m : Memory) (r : Nat) : Prop := ∀ i < 256, child (m.words r i) = none

theorem EmptyHalf.tab (h : EmptyHalf m r) (hk : TableKey (d + 1) k) : m.tab r (d + 1) k = none := by
  induction d generalizing k with
  | zero =>
    have hslot := mem_slots.mp (slot_of_tableKey hk)
    rw [tab_succ, word_of_tab rfl]
    exact h _ (by omega)
  | succ d ih =>
    have hup := ih (tableKey_up hk)
    unfold Memory.tab Radix.tab
    unfold Memory.tab at hup
    rw [hup]
    rfl

theorem EmptyHalf.holds (h : EmptyHalf m r) (hk : (d, k) ∈ slots) : m.holds (r, d, k) = none := by
  cases d with
  | zero => rw [holds_of_lt (by decide), h.tab (tableKey_succ hk (by decide))]
  | succ d =>
    have htab := h.tab (tableKey_of_slot hk)
    unfold Memory.holds Memory.word Radix.word
    unfold Memory.tab at htab
    rw [htab]
    rfl

theorem EmptyHalf.leaf (h : EmptyHalf m r) (hv : v < userPages) : m.leaf r v = 0#64 :=
  leaf_of_none (h.tab (tableKey_of_slot (leaf_mem_slots.mpr hv)))

theorem EmptyHalf.tables (h : EmptyHalf m r) : tables m r = ∅ := by
  unfold Vm.tables
  rw [filter_eq_empty_iff]
  rintro ⟨d, k⟩ hk ⟨hd, hsome⟩
  dsimp only at hd hsome
  rw [h.tab (tableKey_succ hk hd)] at hsome
  cases hsome

/-- A frame that the kernel alone holds becomes a root. -/
theorem Accounted.addRoot (h : Accounted m res R (K + Pi.single f 1))
    (hone : m.uses R (K + Pi.single f 1) f = 1) (he : EmptyHalf m f) :
    f ∉ R ∧ m.uses (insert f R) K = m.uses R (K + Pi.single f 1) ∧
      Accounted m res (insert f R) K := by
  have hnot : f ∉ R := by
    intro hf
    rw [uses_single, uses, if_pos hf, if_pos rfl] at hone
    omega
  have huses : m.uses (insert f R) K = m.uses R (K + Pi.single f 1) := by
    funext g
    have hrefs : refs m.holds (insert f R ×ˢ slots) g = refs m.holds (R ×ˢ slots) g := by
      refine refs_congr ?_
      rintro ⟨r, d, k⟩
      rw [mem_product, mem_product, mem_insert]
      constructor
      · rintro ⟨⟨rfl | hr, hk⟩, hg⟩
        · rw [he.holds hk] at hg
          cases hg
        · exact ⟨⟨hr, hk⟩, hg⟩
      · rintro ⟨⟨hr, hk⟩, hg⟩
        exact ⟨⟨.inr hr, hk⟩, hg⟩
    rw [uses_single]
    unfold uses
    rw [hrefs]
    by_cases hg : g = f
    · subst hg
      simp [hnot]
      omega
    · simp [hg]
  refine ⟨hnot, huses, ?_, h.small, ?_, ?_, ?_⟩
  · rw [huses]
    exact h.follows
  · rw [huses]
    exact h.range
  · intro r hr d k t hk ht
    rw [huses]
    rcases mem_insert.mp hr with rfl | hr
    · cases d with
      | zero =>
        obtain rfl : r = t := Option.some.inj ht
        exact hone
      | succ d =>
        rw [he.tab hk] at ht
        cases ht
    · exact h.table r hr d k t hk ht
  · rw [huses]
    exact h.idle

/-- The outcome of `vmm_new_user_pagetable` where it answers with a root. -/
structure NewRoot (res : Nat → Bool) (R : Finset Nat) (K : Nat → Nat) (m m' : Memory)
    (f : Nat) : Prop where
  fresh : f ∉ R
  unused : m.uses R K f = 0 ∧ f < m.pmm.pages ∧ res f = false
  empty : EmptyHalf m' f
  same : SameTables m m' R
  page : ∀ g, g ≠ f → m'.words g = m.words g
  uses : m'.uses (insert f R) K = m.uses R (K + Pi.single f 1)
  pages : m'.pmm.pages = m.pmm.pages
  reserved : ∀ g < m.pmm.pages, res g = true → m'.pmm.refcount g = m.pmm.refcount g
  accounted : Accounted m' res (insert f R) K

theorem Accounted.newUserPagetable (h : Accounted m res R K) :
    (∃ m' f, m.newUserPagetable = (m', some f) ∧ NewRoot res R K m m' f) ∨
      (m.newUserPagetable = ({ m with nulls := m.nulls + 1 }, none) ∧
        ∀ f < m.pmm.pages, res f = false → 0 < m.uses R K f) := by
  unfold Memory.newUserPagetable
  rcases h.alloc with ⟨f, hpos, hphys, -, hu, hf, hacc⟩ | ⟨hphys, hfail, hfull⟩
  · have hne : f * pageSize ≠ 0 := Nat.ne_of_gt (Nat.mul_pos hpos (by decide))
    unfold Memory.clearPage
    rw [hphys, if_neg hne, mul_pageSize_div]
    refine .inl ⟨_, f, rfl, ?_⟩
    generalize hm' : (m.alloc.1.setPage f fun _ => 0#64).copyKernelHalf f = m'
    have hpage : ∀ g, g ≠ f → m'.words g = m.words g := by
      intro g hg
      rw [← hm']
      exact (update_of_ne hg ..).trans (update_of_ne hg ..)
    have hK : 0 < (K + Pi.single f 1 : Nat → Nat) f := by
      rw [Pi.add_apply, Pi.single_eq_same]
      omega
    have hsame : SameTables m.alloc.1 m' R := by
      intro t ht
      refine hpage t ?_
      rintro rfl
      exact hacc.not_table_of_kernel hK ht
    have hempty : EmptyHalf m' f := by
      intro i hi
      have hwords : m'.words f i = 0#64 := by
        rw [← hm', copyKernelHalf, setPage_same, if_neg (by omega), setPage_same]
      rw [hwords, child_zero]
    have h₁ : Accounted m' res R (K + Pi.single f 1) :=
      hacc.sameTables hsame (by rw [← hm']; rfl)
    have hone : m'.uses R (K + Pi.single f 1) f = 1 := by
      have huses := hsame.uses (K := K + Pi.single f 1)
      have hu' : m.alloc.1.uses R K f = 0 := hu
      rw [huses, uses_single, hu', if_pos rfl]
    obtain ⟨hnot, huses, h₂⟩ := h₁.addRoot hone hempty
    refine ⟨hnot, ⟨hu, hf⟩, hempty, hsame, hpage, ?_, ?_, ?_, h₂⟩
    · rw [huses]
      exact hsame.uses
    · rw [← hm']
      exact pages_pmmAllocPage m.pmm
    · rw [← hm']
      exact fun g _ hres => h.refcount_alloc (.inl hres)
  · rw [if_pos hphys, hfail]
    exact .inr ⟨rfl, hfull⟩

theorem NewRoot.freeFrames (h : NewRoot res R K m m' f) :
    freeFrames m' res (insert f R) K = (freeFrames m res R K).erase f := by
  ext g
  unfold Vm.freeFrames
  rw [h.uses, h.pages, mem_filter, mem_erase, mem_filter, uses_single]
  by_cases hg : g = f
  · subst hg
    simp
  · simp [hg]

theorem NewRoot.card_free (h : NewRoot res R K m m' f) :
    (Vm.freeFrames m' res (insert f R) K).card + 1 = (Vm.freeFrames m res R K).card := by
  have hmem : f ∈ Vm.freeFrames m res R K :=
    mem_freeFrames.mpr ⟨h.unused.2.1, h.unused.2.2, h.unused.1⟩
  rw [h.freeFrames, card_erase_add_one hmem]

/-! ## `vmm_destroy_user_pagetable` -/

/-- The frames freed by `destroyTable`, in order. -/
def freedTable (words : Nat → Nat → Word) : Nat → Nat → Nat → List Nat
  | 0, pt, n => (List.range n).flatMap fun i => (owned (words pt i)).toList
  | level + 1, table, n =>
    (List.range n).flatMap fun i =>
      match child (words table i) with
      | none => []
      | some u => freedTable words level u 512 ++ [u]

/-- `pmm_free_page` for each frame of a list. -/
def freeAll (m : Memory) (l : List Nat) : Memory := l.foldl (fun m f => m.free (f * pageSize)) m

@[simp] theorem freeAll_words (l : List Nat) : (freeAll m l).words = m.words := by
  induction l generalizing m with
  | nil => rfl
  | cons f l ih => exact ih

theorem freeAll_append (l l' : List Nat) : freeAll m (l ++ l') = freeAll (freeAll m l) l' :=
  List.foldl_append

theorem destroyTable_eq {W : Nat → Nat → Word} (level : Nat) (hm : m.words = W) (n : Nat) :
    destroyTable level m t n = freeAll m (freedTable W level t n) := by
  induction level generalizing m t n with
  | zero =>
    unfold destroyTable freedTable
    have hbody : ∀ m : Memory, m.words = W → ∀ i ∈ List.range n,
        (if isSet (m.words t i) ptePresent && !isSet (m.words t i) pteNopmm then
          m.free (physOf (m.words t i)) else m) = freeAll m (owned (W t i)).toList := by
      intro m hm i _
      rw [hm, owned]
      split
      · rw [physOf_eq]
        rfl
      · rfl
    refine (foldl_flatMap _ hbody ?_ hm).1
    intro m hm i hi
    rw [hbody m hm i hi, freeAll_words, hm]
  | succ level ih =>
    unfold destroyTable freedTable
    have hbody : ∀ m : Memory, m.words = W → ∀ i ∈ List.range n,
        (if isSet (m.words t i) ptePresent then
          (destroyTable level m (frameOf (m.words t i)) 512).free (physOf (m.words t i))
        else m) = freeAll m (match child (W t i) with
          | none => []
          | some u => freedTable W level u 512 ++ [u]) := by
      intro m hm i _
      rw [hm, child]
      split
      · rw [ih hm 512, physOf_eq, freeAll_append]
        rfl
      · rfl
    refine (foldl_flatMap _ hbody ?_ hm).1
    intro m hm i hi
    rw [hbody m hm i hi, freeAll_words, hm]

theorem destroyUserPagetable_eq (m : Memory) (r : Nat) :
    m.destroyUserPagetable r = freeAll m (freedTable m.words 3 r 256 ++ [r]) := by
  rw [freeAll_append, ← destroyTable_eq 3 rfl]
  rfl

/-- Each frame of the list is given up by the kernel. -/
theorem Accounted.freeAll {l : List Nat} (h : Accounted m res R (K + fun f => l.count f))
    (hlt : ∀ f ∈ l, m.uses R (K + fun f => l.count f) f < 65536) :
    Accounted (freeAll m l) res R K := by
  induction l generalizing m with
  | nil =>
    have hzero : (K + fun f => List.count f []) = K := by
      funext f
      rw [Pi.add_apply, List.count_nil, Nat.add_zero]
    rw [hzero] at h
    exact h
  | cons a l ih =>
    have hcons : (K + fun f => List.count f (a :: l)) =
        (K + fun f => List.count f l) + Pi.single a 1 := by
      funext f
      simp only [Pi.add_apply, List.count_cons, Pi.single_apply, beq_iff_eq, eq_comm (a := f)]
      omega
    rw [hcons] at h hlt
    have ha := hlt a List.mem_cons_self
    rw [uses_single, if_pos rfl] at ha
    refine ih (h.free (Nat.lt_of_succ_lt_succ ha)) ?_
    intro f hf
    have hf' := hlt f (List.mem_cons_of_mem a hf)
    rw [uses_single] at hf'
    exact Nat.lt_of_le_of_lt (Nat.le_add_right ..) hf'

/-! ### What the tree holds -/

theorem sum_map_range (g : Nat → Nat) (n : Nat) :
    ((List.range n).map g).sum = ∑ i ∈ range n, g i := by
  induction n with
  | zero => rfl
  | succ n ih =>
    rw [List.range_succ, List.map_append, List.sum_append, ih, sum_range_succ]
    simp

theorem sum_range_mul (g : Nat → Nat) (a b : Nat) :
    ∑ i ∈ range a, ∑ j ∈ range b, g (b * i + j) =
      ∑ k ∈ range (a * b), g k := by
  induction a with
  | zero => simp
  | succ a ih =>
    rw [sum_range_succ, ih, Nat.succ_mul, sum_range_add, Nat.mul_comm b a]

/-- How often the words below the table `(d, k)` hold frame `f`. -/
def below (m : Memory) (r f : Nat) : Nat → Nat → Nat → Nat
  | 0, d, k => ∑ i ∈ range 512, one (m.holds (r, d, 512 * k + i)) f
  | level + 1, d, k =>
    ∑ i ∈ range 512,
      (one (m.holds (r, d, 512 * k + i)) f + below m r f level (d + 1) (512 * k + i))

theorem holds_of_no_table (ht : m.tab r d (k / 512) = none) : m.holds (r, d, k) = none := by
  unfold Memory.holds Memory.word Radix.word
  unfold Memory.tab at ht
  rw [ht]
  rfl

theorem key_div {i : Nat} (hi : i < 512) : (512 * k + i) / 512 = k ∧ (512 * k + i) % 512 = i := by
  omega

theorem below_of_no_table {level : Nat} (ht : m.tab r d k = none) :
    below m r f level d k = 0 := by
  induction level generalizing d k with
  | zero =>
    refine sum_eq_zero fun i hi => ?_
    have hdiv := (key_div (k := k) (mem_range.mp hi)).1
    rw [holds_of_no_table (by rw [hdiv]; exact ht), one_none]
    rfl
  | succ level ih =>
    refine sum_eq_zero fun i hi => ?_
    have hdiv := (key_div (k := k) (mem_range.mp hi)).1
    have hnext : m.tab r (d + 1) (512 * k + i) = none := by
      have hup := ht
      unfold Memory.tab at hup
      unfold Memory.tab Radix.tab
      rw [hdiv, hup]
      rfl
    rw [holds_of_no_table (by rw [hdiv]; exact ht), one_none, ih hnext]
    rfl

theorem holds_of_table (ht : m.tab r d k = some t) {i : Nat} (hi : i < 512) :
    m.holds (r, d, 512 * k + i) = (if d = 3 then owned else child) (m.words t i) := by
  obtain ⟨hdiv, hmod⟩ := key_div (k := k) hi
  unfold Memory.holds
  rw [word_of_tab (by rw [hdiv]; exact ht), hmod]
  rfl

theorem count_toList (o : Option Nat) (f : Nat) : o.toList.count f = one o f := by
  cases o with
  | none => rw [one_none]; rfl
  | some g => simp [one, List.count_singleton]

theorem below_eq {level : Nat} (hd : d + level = 3) :
    below m r f level d k = ∑ i ∈ range 512, (one (m.holds (r, d, 512 * k + i)) f +
      if d = 3 then 0 else below m r f (level - 1) (d + 1) (512 * k + i)) := by
  cases level with
  | zero =>
    have hd3 : d = 3 := hd
    simp only [below, if_pos hd3, Nat.add_zero]
  | succ level =>
    have hd3 : ¬d = 3 := by omega
    simp only [below, if_neg hd3, Nat.add_sub_cancel]

/-- The frames freed below a table are those its words and the words below them hold. -/
theorem count_freedTable {level : Nat} (hd : d + level = 3) (ht : m.tab r d k = some t) {n : Nat}
    (hn : n ≤ 512) :
    (freedTable m.words level t n).count f =
      ∑ i ∈ range n, (one (m.holds (r, d, 512 * k + i)) f +
        if d = 3 then 0 else below m r f (level - 1) (d + 1) (512 * k + i)) := by
  induction level generalizing d k t n with
  | zero =>
    have hd3 : d = 3 := hd
    unfold freedTable
    rw [List.count_flatMap, sum_map_range]
    refine sum_congr rfl fun i hi => ?_
    have hi' := mem_range.mp hi
    rw [holds_of_table ht (by omega), if_pos hd3, if_pos hd3, comp_apply, count_toList]
    rfl
  | succ level ih =>
    have hd3 : d ≠ 3 := by omega
    unfold freedTable
    rw [List.count_flatMap, sum_map_range]
    refine sum_congr rfl fun i hi => ?_
    have hi' := mem_range.mp hi
    have hheld := holds_of_table ht (i := i) (by omega)
    rw [if_neg hd3] at hheld
    have hnext : m.tab r (d + 1) (512 * k + i) = child (m.words t i) := by
      obtain ⟨hdiv, hmod⟩ := key_div (k := k) (i := i) (by omega)
      rw [tab_succ, word_of_tab (by rw [hdiv]; exact ht), hmod]
      rfl
    rw [if_neg hd3, hheld, comp_apply, Nat.add_sub_cancel]
    cases hc : child (m.words t i) with
    | none =>
      rw [below_of_no_table (hnext.trans hc), one_none]
      rfl
    | some u =>
      have hrec := ih (d := d + 1) (by omega) (hnext.trans hc) (Nat.le_refl 512)
      rw [List.count_append, hrec, ← below_eq (by omega), ← Option.toList_some u,
        count_toList, Nat.add_comm]

/-- The same for all tables of one depth. -/
theorem sum_below (level d a : Nat) :
    ∑ k ∈ range a, below m r f level d k =
      ∑ e ∈ range (level + 1), ∑ j ∈ range (a * 512 ^ (e + 1)),
        one (m.holds (r, d + e, j)) f := by
  induction level generalizing d a with
  | zero =>
    rw [sum_range_one, Nat.zero_add, Nat.pow_one]
    exact sum_range_mul (fun j => one (m.holds (r, d, j)) f) a 512
  | succ level ih =>
    have hsplit : ∑ k ∈ range a, below m r f (level + 1) d k =
        ∑ j ∈ range (a * 512),
          (one (m.holds (r, d, j)) f + below m r f level (d + 1) j) :=
      sum_range_mul (fun j => one (m.holds (r, d, j)) f + below m r f level (d + 1) j) a 512
    have hshift : ∀ e, ∑ j ∈ range (a * 512 * 512 ^ (e + 1)),
        one (m.holds (r, d + 1 + e, j)) f =
          ∑ j ∈ range (a * 512 ^ (e + 1 + 1)), one (m.holds (r, d + (e + 1), j)) f := by
      intro e
      rw [Nat.mul_assoc, ← Nat.pow_succ', Nat.add_right_comm, Nat.add_assoc]
    have hfirst := sum_range_succ' (fun e =>
      ∑ j ∈ range (a * 512 ^ (e + 1)), one (m.holds (r, d + e, j)) f) (level + 1)
    rw [hsplit, sum_add_distrib, ih, hfirst, Nat.add_comm]
    simp only [hshift, Nat.add_zero, Nat.zero_add, Nat.pow_one]

theorem refs_eq_sum : refs m.holds ({r} ×ˢ slots) f =
    ∑ d ∈ range 4, ∑ k ∈ range (256 * 512 ^ d), one (m.holds (r, d, k)) f := by
  unfold refs
  rw [card_filter, sum_product, sum_singleton]
  unfold slots
  rw [sum_filter, sum_product]
  refine sum_congr rfl fun d hd => ?_
  have hle : 256 * 512 ^ d ≤ 256 * 512 ^ 3 :=
    Nat.mul_le_mul_left _ (Nat.pow_le_pow_right (by decide) (Nat.le_of_lt_succ
      (mem_range.mp hd)))
  have hset : (range (256 * 512 ^ 3)).filter (fun k => k < 256 * 512 ^ d) =
      range (256 * 512 ^ d) := by
    ext k
    rw [mem_filter, mem_range, mem_range]
    exact ⟨fun h => h.2, fun h => ⟨Nat.lt_of_lt_of_le h hle, h⟩⟩
  rw [← sum_filter, hset]
  rfl

/-- `vmm_destroy_user_pagetable` frees what the user half holds. -/
theorem count_freed : (freedTable m.words 3 r 256).count f = refs m.holds ({r} ×ˢ slots) f := by
  have hcount : (freedTable m.words 3 r 256).count f = _ :=
    count_freedTable (d := 0) (k := 0) rfl rfl (by decide)
  have hfour := sum_range_succ' (fun d =>
    ∑ k ∈ range (256 * 512 ^ d), one (m.holds (r, d, k)) f) 3
  rw [hcount, refs_eq_sum, hfour, sum_add_distrib, Nat.add_comm, Nat.pow_zero, Nat.mul_one]
  simp only [if_neg (show ¬(0 = 3) by decide), Nat.mul_zero, Nat.zero_add]
  rw [sum_below]
  simp only [Nat.add_comm 1]

/-- What a root and its user half hold passes to the kernel. -/
theorem Accounted.dropRoot (h : Accounted m res R K) (hr : r ∈ R) :
    m.uses (R.erase r) (K + fun f => (freedTable m.words 3 r 256 ++ [r]).count f) = m.uses R K ∧
      Accounted m res (R.erase r)
        (K + fun f => (freedTable m.words 3 r 256 ++ [r]).count f) := by
  have huses : m.uses (R.erase r)
      (K + fun f => (freedTable m.words 3 r 256 ++ [r]).count f) = m.uses R K := by
    funext f
    have hunion : R ×ˢ slots = (R.erase r) ×ˢ slots ∪ {r} ×ˢ slots := by
      rw [← union_product, union_comm, ← insert_eq, insert_erase hr]
    have hdisj : Disjoint ((R.erase r) ×ˢ slots) (({r} : Finset Nat) ×ˢ slots) := by
      rw [disjoint_left]
      rintro ⟨a, x⟩ ha hb
      rw [mem_product] at ha hb
      exact ne_of_mem_erase ha.1 (mem_singleton.mp hb.1)
    have hrefs := refs_union m.holds hdisj f
    rw [← hunion] at hrefs
    rw [uses_add, List.count_append, count_freed]
    unfold uses
    rw [hrefs, List.count_singleton]
    by_cases hf : f = r
    · subst hf
      simp [hr]
      omega
    · have hne : ¬r = f := fun hc => hf hc.symm
      simp [hf, hne, mem_erase]
      omega
  refine ⟨huses, ?_, h.small, ?_, ?_, ?_⟩
  · rw [huses]
    exact h.follows
  · rw [huses]
    exact h.range
  · intro r' hr' d k t hk ht
    rw [huses]
    exact h.table r' (mem_of_mem_erase hr') d k t hk ht
  · rw [huses]
    exact h.idle

/-- `vmm_destroy_user_pagetable` gives back every frame that the address space alone holds, as long
as no count has wrapped. -/
theorem Accounted.destroyUserPagetable (h : Accounted m res R K) (hr : r ∈ R)
    (hlt : ∀ d k f, (d, k) ∈ slots → m.holds (r, d, k) = some f → m.uses R K f < 65536) :
    Accounted (m.destroyUserPagetable r) res (R.erase r) K := by
  obtain ⟨huses, hdrop⟩ := h.dropRoot hr
  rw [destroyUserPagetable_eq]
  refine hdrop.freeAll ?_
  intro f hf
  rw [huses]
  rcases List.mem_append.mp hf with hf | hf
  · have hpos : 0 < refs m.holds ({r} ×ˢ slots) f := by
      rw [← count_freed]
      exact List.count_pos_iff.mpr hf
    obtain ⟨⟨a, d, k⟩, hx, hheld⟩ := refs_pos.mp hpos
    obtain ⟨ha, hk⟩ := mem_product.mp hx
    obtain rfl : a = r := mem_singleton.mp ha
    exact hlt d k f hk hheld
  · rw [List.mem_singleton.mp hf, h.uses_table (isTable_root hr)]
    decide

theorem destroyUserPagetable_words (m : Memory) (r : Nat) :
    (m.destroyUserPagetable r).words = m.words := by
  rw [destroyUserPagetable_eq, freeAll_words]

end

end Aeryk.Vm
