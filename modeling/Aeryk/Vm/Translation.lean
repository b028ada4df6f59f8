import Aeryk.Lib.Guarded
import Aeryk.Vm.Ranges

/-!
# A page table is a map

Seen from outside, a page table is a map from pages to entries (`plainOp`): `vmm_map_page` replaces
the entry of one page, or none if it runs out of memory, and `vmm_unmap_page` clears one that is
present.  The walk of every page agrees with it after any sequence of calls, whatever tables the
calls have made and whichever frames were recycled for them.  The kernel half takes part as long as
its tables are reserved.

A caller that maps a frame without a reference of its own breaks this: two pages with one reference
free the frame twice, and in between it may have become a table (`shared_frame_disturbs`).
-/

namespace Aeryk.Vm

open Function Lib Mem Mem.Pmm Memory

/-! ## Calls on one page table -/

inductive PageOp
  | map (va phys : Nat) (flags : Word)
  | unmap (va : Nat)

def PageOp.va : PageOp → Nat
  | .map va _ _ => va
  | .unmap va => va

def Memory.pageOp (m : Memory) (pml4 : Nat) : PageOp → Memory
  | .map va phys flags => m.mapPage pml4 va phys flags
  | .unmap va => m.unmapPage pml4 va

/-- The word that the four-level walk of an address ends at, or zero where a table is missing. -/
def Memory.translate (m : Memory) (pml4 va : Nat) : Word :=
  match m.walk pml4 va with
  | none => 0#64
  | some pt => m.words pt (index 0 va)

/-- A plain map from pages to entries after a call, which may have run out of memory. -/
def plainOp (entries : Nat → Word) (failed : Bool) : PageOp → Nat → Word
  | .map va phys flags =>
    if failed then entries else update entries (pageOf va) (entry phys flags)
  | .unmap va =>
    if isSet (entries (pageOf va)) ptePresent then update entries (pageOf va) 0#64
    else entries

/-- A page table and a plain map after the same call. -/
def bothOp (pml4 : Nat) (s : Memory × (Nat → Word)) (op : PageOp) : Memory × (Nat → Word) :=
  (s.1.pageOp pml4 op, plainOp s.2 (decide (s.1.nulls < (s.1.pageOp pml4 op).nulls)) op)

/-- The caller has a reference to the frame: more are counted than entries and tables hold. -/
def Spare (m : Memory) (res : Nat → Bool) (R : Finset Nat) (f : Nat) : Prop :=
  f < m.pmm.pages ∧ res f = false ∧ m.uses R 0 f < m.pmm.refcount f

/-- Calls on user addresses, with frames that the caller has a reference to or that the allocator
does not own. -/
def Entitled (res : Nat → Bool) (R : Finset Nat) (m : Memory) (op : PageOp) : Prop :=
  op.va < 2 ^ 47 ∧
    match op with
    | .map _ phys flags => ∀ f, owned (entry phys flags) = some f → Spare m res R f
    | .unmap _ => True

/-- The keys of the kernel half, with the root. -/
def HighKey (d k : Nat) : Prop := d ≤ 3 ∧ (d = 0 ∨ 256 * 512 ^ (d - 1) ≤ k ∧ k < 512 ^ d)

/-- The tables of the kernel half, below the root, are none of the allocator's. -/
def HighReserved (m : Memory) (res : Nat → Bool) (r : Nat) : Prop :=
  ∀ d k t, HighKey (d + 1) k → m.tab r (d + 1) k = some t → res t = true ∨ m.pmm.pages ≤ t

section

variable {m m' : Memory} {res : Nat → Bool} {R : Finset Nat} {K : Nat → Nat}
  {r d k t f v va phys : Nat} {flags : Word} {op : PageOp}

theorem translate_eq (m : Memory) (r va : Nat) : m.translate r va = m.leaf r (pageOf va) := by
  obtain ⟨hi₀, -⟩ := index_pageOf va
  unfold Memory.translate
  rw [walk_eq, hi₀]
  cases ht : m.tab r 3 (pageOf va / 512) with
  | none => exact (leaf_of_none ht).symm
  | some pt => exact (leaf_of_tab ht).symm

theorem pageOf_lt_userPages (h : va < 2 ^ 47) : pageOf va < userPages := by
  unfold pageOf userPages pageSize
  omega

/-! ## The kernel half -/

theorem highKey_up (h : HighKey (d + 1) k) : HighKey d (k / 512) := by
  obtain ⟨hd, hzero | ⟨hlow, hhigh⟩⟩ := h
  · cases hzero
  · refine ⟨Nat.le_of_succ_le hd, ?_⟩
    cases d with
    | zero => exact .inl rfl
    | succ d =>
      rw [Nat.add_sub_cancel, Nat.pow_succ] at hlow
      rw [Nat.pow_succ] at hhigh
      rw [Nat.add_sub_cancel]
      exact .inr ⟨by omega, by omega⟩

/-- A page of the kernel half. -/
theorem highKey_page (hlow : userPages ≤ v) (hhigh : v < 2 ^ 36) : HighKey 3 (v / 512) := by
  unfold userPages at hlow
  exact ⟨Nat.le_refl 3, .inr ⟨by omega, by omega⟩⟩

/-- What is neither a table of a user half nor free is left alone, and so is the kernel half. -/
theorem HighReserved.tab (h : HighReserved m res r)
    (hroot : ∀ i, 256 ≤ i → m'.words r i = m.words r i)
    (hpage : ∀ t, res t = true ∨ m.pmm.pages ≤ t → m'.words t = m.words t) (hk : HighKey d k) :
    m'.tab r d k = m.tab r d k := by
  refine Radix.tab_congr (V := HighKey) (fun d k => highKey_up) ?_ hk
  intro d k hk t ht
  cases d with
  | zero =>
    obtain rfl : r = t := Option.some.inj ht
    obtain ⟨-, hzero | ⟨hlow, hhigh⟩⟩ := hk
    · cases hzero
    · rw [Nat.zero_add, Nat.sub_self, Nat.pow_zero, Nat.mul_one] at hlow
      rw [Nat.zero_add, Nat.pow_one] at hhigh
      rw [Nat.mod_eq_of_lt hhigh]
      exact hroot k hlow
  | succ d => exact congrFun (hpage t (h d (k / 512) t (highKey_up hk) ht)) _

theorem HighReserved.leaf (h : HighReserved m res r)
    (hroot : ∀ i, 256 ≤ i → m'.words r i = m.words r i)
    (hpage : ∀ t, res t = true ∨ m.pmm.pages ≤ t → m'.words t = m.words t)
    (hlow : userPages ≤ v) (hhigh : v < 2 ^ 36) : m'.leaf r v = m.leaf r v := by
  have hk := highKey_page hlow hhigh
  have htab := h.tab hroot hpage hk
  cases ht : m.tab r 3 (v / 512) with
  | none => rw [leaf_of_none ht, leaf_of_none (htab.trans ht)]
  | some t =>
    rw [leaf_of_tab ht, leaf_of_tab (htab.trans ht), hpage t (h 2 (v / 512) t hk ht)]

structure Spares (m m' : Memory) (res : Nat → Bool) (r : Nat) : Prop where
  root : ∀ i, 256 ≤ i → m'.words r i = m.words r i
  page : ∀ t, res t = true ∨ m.pmm.pages ≤ t → m'.words t = m.words t
  pages : m'.pmm.pages = m.pmm.pages

theorem HighReserved.spares (h : HighReserved m res r) (hs : Spares m m' res r) :
    HighReserved m' res r := by
  intro d k t hk ht
  rw [h.tab hs.root hs.page hk] at ht
  rw [hs.pages]
  exact h d k t hk ht

/-- A frame that is not the allocator's is kept. -/
theorem Accounted.kept_reserved (h : Accounted m res R K) (ht : res t = true ∨ m.pmm.pages ≤ t) :
    Kept m res R K t := by
  refine ⟨fun htab => ?_, .inr ht⟩
  have hone := h.uses_table htab
  obtain ⟨hp, hres⟩ := h.range t (by omega)
  rcases ht with hr | hle
  · exact Bool.false_ne_true (hres.symm.trans hr)
  · omega

theorem Grown.spares {K' : Nat → Nat} (h : Grown res R m K m' K') (hm : Accounted m res R K)
    (hr : r ∈ R) : Spares m m' res r :=
  ⟨h.high r hr, fun t ht => (h.page t (hm.kept_reserved ht)).1, h.pages⟩

/-- `vmm_unmap_page` stores to a page table only. -/
theorem Accounted.spares_unmapPage (h : Accounted m res R K) (hr : r ∈ R)
    (hv : pageOf va < userPages) : Spares m (m.unmapPage r va) res r := by
  obtain ⟨hi₀, -⟩ := index_pageOf va
  unfold Memory.unmapPage
  rw [walk_eq, hi₀]
  generalize pageOf va = v at *
  cases ht : m.tab r 3 (v / 512) with
  | none => exact ⟨fun _ _ => rfl, fun _ _ => rfl, rfl⟩
  | some pt =>
    have hslot := leaf_mem_slots.mpr hv
    have hroot : ∀ i, 256 ≤ i → (m.set pt (v % 512) 0#64).words r i = m.words r i :=
      fun i hi => h.high_set hr hslot ht hr hi
    have hpage : ∀ t, res t = true ∨ m.pmm.pages ≤ t →
        (m.set pt (v % 512) 0#64).words t = m.words t := by
      intro t hres
      refine Radix.store_table ?_
      rintro rfl
      exact (h.kept_reserved hres).1 ⟨r, hr, 3, v / 512, tableKey_of_slot hslot, ht⟩
    dsimp only
    split
    · exact ⟨fun _ _ => rfl, fun _ _ => rfl, rfl⟩
    · split
      · exact ⟨hroot, hpage, rfl⟩
      · exact ⟨hroot, hpage, pages_pmmFreePage _ _⟩

/-! ## One call -/

/-- A frame that the caller has a reference to is one the kernel holds. -/
theorem Accounted.spare_iff (hm : Accounted m res R K) (hlt : m.uses R K f < 65536) :
    Spare m res R f ↔ 0 < K f := by
  have hsplit : m.uses R K f = m.uses R 0 f + K f := by
    rw [← uses_add, zero_add]
  have hcount : f < m.pmm.pages → res f = false → 0 < m.uses R K f →
      m.pmm.refcount f = m.uses R K f := by
    intro hp hres hpos
    have hmod : m.pmm.refcount f = m.uses R K f % 65536 := hm.follows.count f hp hres hpos
    rwa [Nat.mod_eq_of_lt hlt] at hmod
  constructor
  · rintro ⟨hp, hres, hspare⟩
    rcases Nat.eq_zero_or_pos (m.uses R K f) with hz | hpos
    · have := hm.idle f hp hres hz
      omega
    · have := hcount hp hres hpos
      omega
  · intro hK
    have hpos : 0 < m.uses R K f := by omega
    obtain ⟨hp, hres⟩ := hm.range f hpos
    have := hcount hp hres hpos
    exact ⟨hp, hres, by omega⟩

/-- What the kernel holds, with one reference set aside. -/
theorem exists_add_one (K : Nat → Nat) {o : Option Nat} (h : ∀ f, o = some f → 0 < K f) :
    ∃ K₀, K = K₀ + one o := by
  refine ⟨K - one o, ?_⟩
  funext f
  rw [Pi.add_apply, Pi.sub_apply, one]
  split
  next heq =>
    have := h f heq
    omega
  · omega

/-- What is known of a page: those of the user half, and of the kernel half if it is reserved. -/
def Known (m : Memory) (res : Nat → Bool) (r v : Nat) : Prop :=
  v < userPages ∨ v < 2 ^ 36 ∧ HighReserved m res r

/-- Where the entries of the user half are those of a plain map, so are all. -/
theorem Spares.leaf {e : Nat → Word} (hs : Spares m m' res r)
    (huser : ∀ v < userPages, m'.leaf r v = e v) (hsame : ∀ v, userPages ≤ v → e v = m.leaf r v)
    (hv : Known m res r v) : m'.leaf r v = e v := by
  rcases Nat.lt_or_ge v userPages with hlt | hge
  · exact huser v hlt
  · rcases hv with hlt | ⟨hhigh, hres⟩
    · exact huser v hlt
    · rw [hsame v hge, hres.leaf hs.root hs.page hge hhigh]

theorem Sound.pageOp_map (h : Sound m res R) (hr : r ∈ R)
    (hop : Entitled res R m (.map va phys flags)) :
    Sound (m.mapPage r va phys flags) res R ∧ Spares m (m.mapPage r va phys flags) res r ∧
      ∀ v, Known m res r v → (m.mapPage r va phys flags).leaf r v =
        plainOp (m.leaf r) (decide (m.nulls < (m.mapPage r va phys flags).nulls))
          (.map va phys flags) v := by
  obtain ⟨K, hacc, hlt⟩ := h
  obtain ⟨hva, hheld⟩ := hop
  have hv : pageOf va < userPages := pageOf_lt_userPages hva
  obtain ⟨K₀, rfl⟩ := exists_add_one K fun f hf =>
    (hacc.spare_iff (hlt f)).mp (hheld f hf)
  have hmax : ∀ {n a b : Nat}, n ≤ max a b → a < 65536 → b < 65536 → n < 65536 := by omega
  rcases hacc.mapPage_uses hr hv with ⟨hm, huses⟩ | ⟨hm, huses⟩
  · have hspares := hm.walked.grown.spares hacc hr
    refine ⟨⟨_, hm.accounted, fun f => hmax (huses f) (by decide) (hlt f)⟩, hspares, ?_⟩
    have hdone : decide (m.nulls < (m.mapPage r va phys flags).nulls) = false := by
      rw [hm.nulls]
      simp
    rw [hdone]
    intro v hknown
    refine hspares.leaf (fun u hu => ?_) (fun u hu => ?_) hknown
    · rw [hm.leaf r hr u hu]
      simp only [plainOp, Bool.false_eq_true, if_false, true_and, update_apply]
    · simp only [plainOp, Bool.false_eq_true, if_false]
      exact update_of_ne (by omega) ..
  · have hspares := hm.walked.grown.spares hacc hr
    refine ⟨⟨_, hm.accounted, fun f => hmax (huses f) (by decide) (hlt f)⟩, hspares, ?_⟩
    have hfailed : decide (m.nulls < (m.mapPage r va phys flags).nulls) = true := by
      rw [hm.nulls]
      simp
    rw [hfailed]
    intro v hknown
    exact hspares.leaf (hm.leaf r hr) (fun u _ => rfl) hknown

theorem Sound.pageOp_unmap (h : Sound m res R) (hr : r ∈ R) (hva : va < 2 ^ 47) (failed : Bool) :
    Sound (m.unmapPage r va) res R ∧ Spares m (m.unmapPage r va) res r ∧
      ∀ v, Known m res r v → (m.unmapPage r va).leaf r v =
        plainOp (m.leaf r) failed (.unmap va) v := by
  have hv := pageOf_lt_userPages hva
  have hsound := (h.unmapPage hr hv).1
  obtain ⟨K, hacc, hlt⟩ := h
  obtain ⟨-, hleaf⟩ := hacc.unmapPage hr hv fun f _ => hlt f
  have hspares := hacc.spares_unmapPage hr hv
  refine ⟨hsound, hspares, fun v hknown => ?_⟩
  refine hspares.leaf (fun u hu => ?_) (fun u hu => ?_) hknown
  · rw [hleaf r hr u hu, plainOp, unmapped]
    by_cases heq : u = pageOf va
    · subst heq
      rw [if_pos ⟨rfl, rfl⟩]
      split
      · rw [update_self]
      · rfl
    · rw [if_neg fun hc => heq hc.2]
      split
      · rw [update_of_ne heq]
      · rfl
  · rw [plainOp]
    split
    · exact update_of_ne (by omega) ..
    · rfl

/-- A call does to the walks what it does to a plain map. -/
theorem Sound.pageOp (h : Sound m res R) (hr : r ∈ R) (hop : Entitled res R m op) :
    Sound (m.pageOp r op) res R ∧ Spares m (m.pageOp r op) res r ∧
      ∀ v, Known m res r v → (m.pageOp r op).leaf r v =
        plainOp (m.leaf r) (decide (m.nulls < (m.pageOp r op).nulls)) op v := by
  cases op with
  | map va phys flags => exact h.pageOp_map hr hop
  | unmap va => exact h.pageOp_unmap hr hop.1 _

/-! ## Runs -/

/-- Two plain maps that agree on some pages, the one of the call among them, go on to agree. -/
theorem plainOp_congr {e e' : Nat → Word} {P : Nat → Prop} (h : ∀ v, P v → e v = e' v)
    (hop : P (pageOf op.va)) (failed : Bool) (hv : P v) :
    plainOp e failed op v = plainOp e' failed op v := by
  have hstep : ∀ w : Word, update e (pageOf op.va) w v =
      update e' (pageOf op.va) w v := by
    intro w
    rw [update_apply, update_apply, h v hv]
  cases op with
  | map va phys flags =>
    rw [plainOp, plainOp]
    split
    · exact h v hv
    · exact hstep _
  | unmap va =>
    have hpage : e (pageOf va) = e' (pageOf va) := h _ hop
    rw [plainOp, plainOp, hpage]
    split
    · exact hstep _
    · exact h v hv

/-- The walks of a page table and a plain map agree, on the pages known at the start. -/
structure Agree (m₀ : Memory) (res : Nat → Bool) (R : Finset Nat) (r : Nat)
    (s : Memory × (Nat → Word)) : Prop where
  sound : Sound s.1 res R
  high : HighReserved m₀ res r → HighReserved s.1 res r
  leaf : ∀ v, Known m₀ res r v → s.1.leaf r v = s.2 v

theorem Agree.step {m₀ : Memory} {s : Memory × (Nat → Word)} (h : Agree m₀ res R r s) (hr : r ∈ R)
    (hop : Entitled res R s.1 op) : Agree m₀ res R r (bothOp r s op) := by
  obtain ⟨hsound, hspares, hleaf⟩ := h.sound.pageOp hr hop
  have hknown : ∀ {v}, Known m₀ res r v → Known s.1 res r v :=
    fun hv => hv.imp id fun hv => ⟨hv.1, h.high hv.2⟩
  refine ⟨hsound, fun hres => (h.high hres).spares hspares, fun v hv => ?_⟩
  rw [bothOp, hleaf v (hknown hv)]
  exact plainOp_congr h.leaf (.inl (pageOf_lt_userPages hop.1)) _ hv

/-- In accounted memory, after every sequence of calls with frames that the caller may map, the
walk of every page yields what a plain map yields after the same calls. -/
theorem page_table_is_map (h : Sound m res R) (hr : r ∈ R) {ops : List PageOp}
    (hops : Along (fun s op => Entitled res R s.1 op) (bothOp r) (m, m.leaf r) ops)
    (hva : va < 2 ^ 47 ∨ HighReserved m res r) :
    (ops.foldl (bothOp r) (m, m.leaf r)).1.translate r va =
      (ops.foldl (bothOp r) (m, m.leaf r)).2 (pageOf va) := by
  have hstart : Agree m res R r (m, m.leaf r) := ⟨h, id, fun _ _ => rfl⟩
  have hend := hops.keeps (fun s op hs hop => hs.step hr hop) hstart
  have hpage : pageOf va < 2 ^ 36 := Nat.mod_lt _ (by decide)
  rw [translate_eq]
  exact hend.leaf _ (hva.imp pageOf_lt_userPages fun hres => ⟨hpage, hres⟩)

end

/-! ## One frame and two pages -/

/-- An empty page table in frame 1, and frame 2 for a page. -/
def heldFrame : Memory := (freshMemory 2).newUserPagetable.1.alloc.1

/-- The caller has the only reference to frame 2. -/
theorem heldFrame_accounted :
    Accounted heldFrame onlyZero {1} (Pi.single 2 1) ∧
      ∀ f, heldFrame.uses {1} (Pi.single 2 1) f < 65536 := by
  have hroot : (freshMemory 2).newUserPagetable.2 = some 1 := by decide +kernel
  have hpage : (freshMemory 2).newUserPagetable.1.alloc.2 = 2 * pageSize := by decide +kernel
  unfold heldFrame
  have hfresh : Accounted (freshMemory 2) onlyZero ∅ 0 :=
    freshMemory_accounted (by decide) (by decide)
  rcases hfresh.newUserPagetable with
    ⟨m, r, heq, hnew⟩ | ⟨heq, -⟩
  · rw [heq] at hroot hpage ⊢
    obtain rfl : r = 1 := Option.some.inj hroot
    have hacc : Accounted m onlyZero {1} 0 := hnew.accounted
    have huses : ∀ f, m.uses {1} 0 f ≤ 1 := by
      intro f
      have heq : m.uses {1} 0 f = _ := congrFun hnew.uses f
      rw [heq, uses_single, freshMemory_uses]
      split <;> omega
    rcases hacc.alloc_frame with ⟨f, -, hphys, -, hfree, hacc', -⟩ | ⟨hphys, -, -⟩
    · obtain rfl : f = 2 := Nat.eq_of_mul_eq_mul_right (by decide) (hphys.symm.trans hpage)
      rw [zero_add] at hacc'
      refine ⟨hacc', fun f => ?_⟩
      have hle := huses f
      have hsplit : m.alloc.1.uses {1} (0 + Pi.single 2 1) f =
          m.uses {1} 0 f + if f = 2 then 1 else 0 := uses_single
      rw [zero_add] at hsplit
      rw [hsplit]
      split <;> omega
    · rw [hphys] at hpage
      exact absurd hpage (by decide)
  · rw [heq] at hroot
    cases hroot

theorem heldFrame_sound : Sound heldFrame onlyZero {1} := ⟨_, heldFrame_accounted⟩

theorem heldFrame_spare : Spare heldFrame onlyZero {1} 2 := by
  obtain ⟨hacc, hlt⟩ := heldFrame_accounted
  rw [hacc.spare_iff (hlt 2), Pi.single_eq_same]
  exact Nat.one_pos

def mapUnmap : List PageOp := [.map 0 (2 * pageSize) dataFlags, .unmap 0]

theorem page_table_is_map_heldFrame :
    (mapUnmap.foldl (bothOp 1) (heldFrame, heldFrame.leaf 1)).1.translate 1 0 =
      (mapUnmap.foldl (bothOp 1) (heldFrame, heldFrame.leaf 1)).2 (pageOf 0) := by
  have howned : owned (entry (2 * pageSize) dataFlags) = some 2 := by decide
  have hfirst : Entitled onlyZero {1} heldFrame (.map 0 (2 * pageSize) dataFlags) := by
    refine ⟨Nat.two_pow_pos 47, fun f hf => ?_⟩
    obtain rfl : 2 = f := Option.some.inj (howned.symm.trans hf)
    exact heldFrame_spare
  exact page_table_is_map heldFrame_sound (Finset.mem_singleton_self 1)
    ⟨hfirst, ⟨Nat.two_pow_pos 47, trivial⟩, trivial⟩ (.inl (Nat.two_pow_pos 47))

/-- One frame for two pages.  Unmapping the first frees it, the next call makes it a table, and
unmapping the second frees that. -/
def twoPagesOneFrame : List PageOp :=
  [.map 0 (2 * pageSize) dataFlags, .map pageSize (2 * pageSize) dataFlags, .unmap 0,
    .map (2 ^ 39) 0 fbFlags, .unmap pageSize, .map (2 ^ 40) pageSize fbFlags]

/-- The entry of the fourth call is lost. -/
theorem shared_frame_disturbs :
    Sound heldFrame onlyZero {1} ∧ (∀ op ∈ twoPagesOneFrame, op.va < 2 ^ 47) ∧
      (twoPagesOneFrame.foldl (bothOp 1) (heldFrame, heldFrame.leaf 1)).2 (pageOf (2 ^ 39)) =
        entry 0 fbFlags ∧
      (twoPagesOneFrame.foldl (bothOp 1) (heldFrame, heldFrame.leaf 1)).1.translate 1 (2 ^ 39) =
        entry pageSize fbFlags := by
  refine ⟨heldFrame_sound, ?_, ?_, ?_⟩
  · simp [twoPagesOneFrame, PageOp.va, pageSize]
  · decide +kernel
  · decide +kernel

end Aeryk.Vm
