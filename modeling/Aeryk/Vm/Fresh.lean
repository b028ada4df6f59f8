import Aeryk.Vm.Clone

/-!
# New pages

`SYS_mmap`, `SYS_brk`, `elf_load` and the code that makes the user stack all add a page in the same
three steps: `pmm_alloc_page`, a `memset`, `vmm_map_page`.  If no frame is left for a page table,
the page is allocated and mapped nowhere, and the caller goes on as if it were there.

At the end is the memory the kernel starts from, with every frame free but frame 0.
-/

namespace Aeryk.Vm

open Finset Lib Mem Mem.Pmm Memory

/-- Allocates a page, clears it and maps it.  The answer says whether there was a frame for
the page. -/
def Memory.mapNewPage (m : Memory) (pml4 va : Nat) (flags : Word) : Memory × Bool :=
  if m.alloc.2 = 0 then (m.alloc.1, false)
  else ((m.alloc.1.clearPage m.alloc.2).mapPage pml4 va m.alloc.2 flags, true)

/-- Allocates a page, fills it and maps it. -/
def Memory.mapFilledPage (m : Memory) (pml4 va : Nat) (flags : Word) (ws : Nat → Word) :
    Memory × Bool :=
  if m.alloc.2 = 0 then (m.alloc.1, false)
  else ((m.alloc.1.setPage (m.alloc.2 / pageSize) ws).mapPage pml4 va m.alloc.2 flags, true)

structure PageFlags (flags : Word) : Prop where
  addr : flags &&& addrMask = 0#64
  present : isSet flags ptePresent = true
  managed : isSet flags pteNopmm = false

section

variable {m m' : Memory} {res : Nat → Bool} {R : Finset Nat} {K K' : Nat → Nat}
  {r r' v va f : Nat} {flags : Word} {ws : Nat → Word}

theorem PageFlags.owned_entry (h : PageFlags flags) (hf : f < 2 ^ 40) :
    owned (entry (f * pageSize) flags) = some f := by
  rw [owned_eq_some, isSet_entry hf (by decide), isSet_entry hf (by decide),
    frameOf_entry hf h.addr]
  exact ⟨⟨h.present, h.managed⟩, rfl⟩

/-- A frame has been taken and filled for a new page `v`, whether it was mapped or not. -/
structure Placed (res : Nat → Bool) (R : Finset Nat) (m : Memory) (K : Nat → Nat) (m' : Memory)
    (K' : Nat → Nat) (r v f : Nat) (ws : Nat → Word) : Prop where
  free : f ∈ freeFrames m res R K
  accounted : Accounted m' res R K'
  grown : Grown res R m K m' K'
  kept : Kept m' res R K' f
  contents : m'.words f = ws
  within : ∀ x, x ∈ tables m' r → x ∈ tables m r ∨ x ∈ wayTo v
  room : (freeFrames m' res R K').card + (tables m' r).card + 1 =
    (freeFrames m res R K).card + (tables m r).card

/-- What the walk to the page has done since the frame was filled. -/
theorem Placed.of_walked {m₁ : Memory} (hf : f ∈ freeFrames m res R K)
    (hfree : freeFrames m₁ res R (K + Pi.single f 1) = (freeFrames m res R K).erase f)
    (hsame : SameTables m m₁ R) (hgrown : Grown res R m K m₁ (K + Pi.single f 1))
    (h₁ : Accounted m₁ res R (K + Pi.single f 1)) (hfill : m₁.words f = ws) (hr : r ∈ R)
    (hwalk : Walked res R m₁ (K + Pi.single f 1) m' K' r v) (hacc : Accounted m' res R K') :
    Placed res R m K m' K' r v f ws := by
  have hK : 0 < (K + Pi.single f 1 : Nat → Nat) f := by
    rw [Pi.add_apply, Pi.single_eq_same]
    omega
  have hkept : Kept m₁ res R (K + Pi.single f 1) f := by
    refine ⟨h₁.not_table_of_kernel hK, .inl ?_⟩
    rw [uses_single, if_pos rfl]
    omega
  obtain ⟨hwords, hkept'⟩ := hwalk.grown.page f hkept
  refine ⟨hf, hacc, hgrown.trans hwalk.grown, hkept', hwords.trans hfill, ?_, ?_⟩
  · intro x hx
    have hin := hwalk.within hx
    rw [hsame.tables hr] at hin
    exact mem_union.mp hin
  · have hroom := hwalk.room
    have hpos := card_pos.mpr ⟨f, hf⟩
    rw [hfree, hsame.tables hr, card_erase_of_mem hf] at hroom
    omega

/-- A page is mapped, or no frame is left for its tables, or none for the page. -/
theorem Accounted.mapFilledPage (h : Accounted m res R K) (hr : r ∈ R)
    (hv : pageOf va < userPages) (hflags : PageFlags flags) (ws : Nat → Word) :
    (∃ m' f, m.mapFilledPage r va flags ws = (m', true) ∧
        Placed res R m K m' (K + one (owned (m.leaf r (pageOf va)))) r (pageOf va) f ws ∧
        wayTo (pageOf va) ⊆ tables m' r ∧
        (∀ r' ∈ R, ∀ v < userPages, m'.leaf r' v =
          if r' = r ∧ v = pageOf va then entry (f * pageSize) flags else m.leaf r' v)) ∨
      (∃ m' f, m.mapFilledPage r va flags ws = (m', true) ∧
        Placed res R m K m' (K + Pi.single f 1) r (pageOf va) f ws ∧
        ¬wayTo (pageOf va) ⊆ tables m' r ∧
        (∀ r' ∈ R, ∀ v < userPages, m'.leaf r' v = m.leaf r' v) ∧
        freeFrames m' res R (K + Pi.single f 1) = ∅) ∨
      (m.mapFilledPage r va flags ws = ({ m with nulls := m.nulls + 1 }, false) ∧
        freeFrames m res R K = ∅) := by
  unfold Memory.mapFilledPage
  rcases h.alloc_frame with ⟨f, hpos, hphys, -, hf, hacc, hfree⟩ | ⟨hphys, hfail, hfull⟩
  · have hne : f * pageSize ≠ 0 := Nat.ne_of_gt (Nat.mul_pos hpos (by decide))
    obtain ⟨hlt, hres, hu⟩ := mem_freeFrames.mp hf
    rw [if_neg (hphys.symm ▸ hne), hphys, mul_pageSize_div]
    obtain ⟨hsame, hgrown⟩ := grown_alloc_setPage h hu ⟨hlt, hres⟩ hacc ws
    have h₁ : Accounted (m.alloc.1.setPage f ws) res R (K + Pi.single f 1) :=
      hacc.sameTables hsame rfl
    have hfill : (m.alloc.1.setPage f ws).words f = ws := setPage_same _ _ _
    have hfree₁ : freeFrames (m.alloc.1.setPage f ws) res R (K + Pi.single f 1) =
        (freeFrames m res R K).erase f := by
      rw [← hfree]
      ext g
      have huses : (m.alloc.1.setPage f ws).uses R (K + Pi.single f 1) =
          m.alloc.1.uses R (K + Pi.single f 1) := hsame.uses
      rw [mem_freeFrames, mem_freeFrames, huses]
      rfl
    generalize (m.alloc.1.setPage f ws) = m₁ at *
    have hone : one (owned (entry (f * pageSize) flags)) = Pi.single f 1 := by
      rw [hflags.owned_entry (Nat.lt_of_lt_of_le hlt h.small), one_some]
    have hstart := h₁
    rw [← hone] at hstart
    rcases hstart.mapPage hr hv with hm | hm
    · have hwalk := hm.walked
      rw [hone, hsame.leaf hr hv] at hwalk
      have hacc' := hm.accounted
      rw [hsame.leaf hr hv] at hacc'
      refine .inl ⟨_, f, rfl,
        Placed.of_walked hf hfree₁ hsame hgrown h₁ hfill hr hwalk hacc',
        hm.way, ?_⟩
      intro r' hr' v hv'
      rw [hm.leaf r' hr' v hv', hsame.leaf hr' hv']
    · have hwalk := hm.walked
      have hacc' := hm.accounted
      have hfull := hm.full
      rw [hone] at hwalk hacc' hfull
      refine .inr (.inl ⟨_, f, rfl,
        Placed.of_walked hf hfree₁ hsame hgrown h₁ hfill hr hwalk hacc', hm.way, ?_, hfull⟩)
      intro r' hr' v hv'
      rw [hm.leaf r' hr' v hv', hsame.leaf hr' hv']
  · rw [if_pos hphys, hfail]
    exact .inr (.inr ⟨rfl, hfull⟩)

theorem Accounted.mapFilledPage_none (h : Accounted m res R K) (hfull : freeFrames m res R K = ∅)
    (pml4 va : Nat) (flags : Word) (ws : Nat → Word) :
    m.mapFilledPage pml4 va flags ws = ({ m with nulls := m.nulls + 1 }, false) := by
  unfold Memory.mapFilledPage
  rcases h.alloc_frame with ⟨f, -, -, -, hf, -⟩ | ⟨hphys, hfail, -⟩
  · rw [hfull] at hf
    exact absurd hf (notMem_empty f)
  · rw [if_pos hphys, hfail]

/-- A new page is one filled with zeros. -/
theorem mapNewPage_eq (m : Memory) (pml4 va : Nat) (flags : Word) :
    m.mapNewPage pml4 va flags = m.mapFilledPage pml4 va flags fun _ => 0#64 :=
  rfl

/-! ## The memory at the start -/

/-- Frame 0 is reserved and all others are free.  The bitmap is at address 0 and the counts
follow it. -/
def freshMemory (bytes : Nat) : Memory where
  pmm :=
    { mem := fun a => if a = 0 then 1#8 else 0#8
      bitmap := 0
      bitmapSize := bytes
      highestAddress := 8 * bytes * pageSize
      bitmapIndex := 0 }
  words := fun _ _ => 0#64
  kernelPml4 := 0
  nulls := 0

def onlyZero (f : Nat) : Bool := f == 0

theorem freshMemory_bit (bytes f : Nat) : (freshMemory bytes).pmm.bitmapTest f = onlyZero f := by
  unfold Pmm.bitmapTest freshMemory onlyZero
  rw [bitAt_eq]
  dsimp only
  by_cases hbyte : 0 + f / 8 = 0
  · have hlt : f < 8 := by omega
    rw [if_pos hbyte, Nat.mod_eq_of_lt hlt, BitVec.getLsbD_one]
    simp [Bool.beq_eq_decide_eq]
  · have hf : f ≠ 0 := by
      rintro rfl
      exact hbyte rfl
    rw [if_neg hbyte, BitVec.getLsbD_zero, beq_false_of_ne hf]

theorem freshMemory_pages (bytes : Nat) : (freshMemory bytes).pmm.pages = 8 * bytes :=
  mul_pageSize_div (8 * bytes)

theorem freshMemory_uses (bytes f : Nat) : (freshMemory bytes).uses ∅ 0 f = 0 := by
  unfold Memory.uses
  rw [empty_product]
  rfl

theorem freshMemory_refcount {bytes : Nat} (hb : 0 < bytes) (f : Nat) :
    (freshMemory bytes).pmm.refcount f = 0 := by
  unfold Pmm.refcount Pmm.refcounts freshMemory wordAt
  dsimp only
  rw [if_neg (by omega), if_neg (by omega)]
  rfl

/-- Nobody holds a frame at the start. -/
theorem freshMemory_accounted {bytes : Nat} (hb : 0 < bytes) (hsmall : 8 * bytes ≤ 2 ^ 40) :
    Accounted (freshMemory bytes) onlyZero ∅ 0 where
  follows :=
    { covers := (freshMemory_pages bytes).le
      bit := by
        intro f _
        rw [freshMemory_bit, Ledger.Free]
        exact (and_iff_left (freshMemory_uses bytes f)).symm
      count := by
        intro f _ _ hpos
        exact absurd (freshMemory_uses bytes f) (Nat.ne_of_gt hpos)
      hint := fun f hf => absurd hf (Nat.not_lt_zero f)
      index_le := Nat.zero_le _
      zero := rfl }
  small := (freshMemory_pages bytes).le.trans hsmall
  range f hf := absurd (freshMemory_uses bytes f) (Nat.ne_of_gt hf)
  table r hr := absurd hr (notMem_empty r)
  idle f _ _ _ := freshMemory_refcount hb f

theorem freshMemory_free (bytes : Nat) :
    freeFrames (freshMemory bytes) onlyZero ∅ 0 = (range (8 * bytes)).erase 0 := by
  ext f
  rw [mem_freeFrames, freshMemory_pages, mem_erase, mem_range]
  unfold onlyZero
  rw [beq_eq_false_iff_ne]
  constructor
  · rintro ⟨hlt, hne, -⟩
    exact ⟨hne, hlt⟩
  · rintro ⟨hne, hlt⟩
    exact ⟨hlt, hne, freshMemory_uses bytes f⟩

theorem freshMemory_card {bytes : Nat} (hb : 0 < bytes) :
    (freeFrames (freshMemory bytes) onlyZero ∅ 0).card + 1 = 8 * bytes := by
  rw [freshMemory_free, card_erase_of_mem (mem_range.mpr (by omega)),
    card_range]
  omega

/-- The flags of the pages of the heap and of the user stack. -/
def dataFlags : Word := ptePresent ||| pteWritable ||| pteUser ||| pteNx

theorem dataFlags_page : PageFlags dataFlags := ⟨by decide, by decide, by decide⟩

/-- The first address space, with page `v` in it, and its root. -/
def onePage (bytes v : Nat) : Memory × Nat :=
  match (freshMemory bytes).newUserPagetable with
  | (m, none) => (m, 0)
  | (m, some r) => ((m.mapNewPage r (v * pageSize) dataFlags).1, r)

theorem card_wayTo (v : Nat) : (wayTo v).card = 3 := by
  unfold wayTo
  rw [card_insert_of_notMem (by simp), card_insert_of_notMem (by simp),
    card_singleton]

/-- The page is there, and five frames are in use. -/
theorem onePage_spec {bytes : Nat} (hb : 0 < bytes) (hsmall : 8 * bytes ≤ 2 ^ 40)
    (hv : v < userPages) :
    ∃ f < 2 ^ 40, Accounted (onePage bytes v).1 onlyZero {(onePage bytes v).2} 0 ∧
      (∀ u < userPages, (onePage bytes v).1.leaf (onePage bytes v).2 u =
        if u = v then entry (f * pageSize) dataFlags else 0#64) ∧
      (freeFrames (onePage bytes v).1 onlyZero {(onePage bytes v).2} 0).card + 6 = 8 * bytes ∧
      tables (onePage bytes v).1 (onePage bytes v).2 = wayTo v := by
  have hfresh := freshMemory_accounted hb hsmall
  have hcard := freshMemory_card hb
  rcases hfresh.newUserPagetable with ⟨m, r, heq, hnew⟩ | ⟨-, hfull⟩
  · have hroom : (freeFrames m onlyZero {r} 0).card + 2 = 8 * bytes := by
      have hfree : (freeFrames m onlyZero {r} 0).card + 1 = _ := hnew.card_free
      omega
    have hacc : Accounted m onlyZero {r} 0 := hnew.accounted
    have hempty := hnew.empty
    have hpage := pageOf_mul hv
    have hva : pageOf (v * pageSize) < userPages := hpage.symm ▸ hv
    have hzero : m.leaf r v = 0#64 := hempty.leaf hv
    unfold onePage
    rw [heq]
    dsimp only
    have hmap := hacc.mapFilledPage (mem_singleton_self r) hva dataFlags_page fun _ => 0#64
    rw [hpage, hzero, owned_zero, one_none, add_zero] at hmap
    rcases hmap with ⟨m', f, hm', htaken, hway, hleaf⟩ |
      ⟨m', f, -, htaken, hway, -, hfull⟩ | ⟨-, hfull⟩
    · rw [mapNewPage_eq, hm']
      dsimp only
      have hlt := (mem_freeFrames.mp htaken.free).1
      have htables : tables m' r = wayTo v := by
        refine Finset.Subset.antisymm (fun x hx => ?_) hway
        have hin := htaken.within x hx
        rw [hempty.tables] at hin
        exact hin.resolve_left (notMem_empty x)
      refine ⟨f, Nat.lt_of_lt_of_le hlt hacc.small, htaken.accounted, ?_, ?_, htables⟩
      · intro u hu
        rw [hleaf r (mem_singleton_self r) u hu, hempty.leaf hu]
        exact if_congr (and_iff_right rfl) rfl rfl
      · have hcount := htaken.room
        rw [htables, hempty.tables, card_wayTo, card_empty] at hcount
        omega
    · have hsub : tables m' r ⊂ wayTo v := by
        refine ⟨fun x hx => ?_, hway⟩
        have hin := htaken.within x hx
        rw [hempty.tables] at hin
        exact hin.resolve_left (notMem_empty x)
      have hlt := card_lt_card hsub
      have hcount := htaken.room
      rw [hfull, hempty.tables, card_empty, card_empty] at hcount
      rw [card_wayTo] at hlt
      omega
    · rw [hfull, card_empty] at hroom
      omega
  · have hone := hfull 1 (by rw [freshMemory_pages]; omega) rfl
    rw [freshMemory_uses] at hone
    omega

section

variable {m : Memory} {r f : Nat} (hf : f < 2 ^ 40)
  (hleaf : ∀ u < userPages, m.leaf r u = if u = v then entry (f * pageSize) dataFlags else 0#64)

include hf hleaf

theorem owned_single (u : Nat) (hu : u < userPages) :
    owned (m.leaf r u) = if u = v then some f else none := by
  rw [hleaf u hu]
  split
  · exact dataFlags_page.owned_entry hf
  · exact owned_zero

theorem presentPages_single (hv : v < userPages) : presentPages m r = {v} := by
  ext u
  rw [mem_presentPages, mem_singleton]
  constructor
  · rintro ⟨hu, hp⟩
    rw [hleaf u hu] at hp
    by_contra hne
    rw [if_neg hne, isSet_zero] at hp
    cases hp
  · rintro rfl
    refine ⟨hv, ?_⟩
    rw [hleaf u hv, if_pos rfl, isSet_entry hf (by decide)]
    decide

/-- No page is without the allocator, or to be copied on a write. -/
theorem flags_single {flag : Word} (haddr : addrMask &&& flag = 0#64)
    (hflag : isSet dataFlags flag = false) (u : Nat) (hu : u < userPages) :
    isSet (m.leaf r u) flag = false := by
  rw [hleaf u hu]
  split
  · rw [isSet_entry hf haddr, hflag]
  · exact isSet_zero flag

end

end

end Aeryk.Vm
