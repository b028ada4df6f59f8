import Aeryk.Vm.Failing

/-!
# Memory calls that succeed

A range that `SYS_mmap` returns should be mapped in full, to cleared frames of its own, and a break
that `SYS_brk` accepts should have the heap below it mapped.  Two things can go wrong.  The sum
that rounds up to whole pages can wrap, and then nothing is mapped.  And the frames can run out at
a table of the last page: `vmm_map_page` does not say so, and the call succeeds with its last page
missing.  So the promise is kept exactly where neither happens.
-/

namespace Aeryk.Vm

open Finset Lib Mem Mem.Pmm Memory

section

variable {m m' : Memory} {res : Nat → Bool} {R : Finset Nat} {K : Nat → Nat}
  {r p n v d k prot flags' : Nat} {flags : Word} {t : Task}

/-! ## Pages with all their tables -/

theorem tab_up (h : (m.tab r (d + 1) k).isSome) : (m.tab r d (k / 512)).isSome := by
  rw [tab_succ] at h
  unfold Memory.word Radix.word at h
  unfold Memory.tab
  cases ht : Radix.tab 512 child m.words r d (k / 512) with
  | none =>
    rw [ht] at h
    cases h
  | some t => rfl

/-- A page that is present has all its tables. -/
theorem way_of_present (hv : v < userPages) (hp : isSet (m.leaf r v) ptePresent = true) :
    wayTo v ⊆ tables m r := by
  obtain ⟨-, hs₂, hs₁, hs₀⟩ := page_slots hv
  have h₃ : (m.tab r 3 (v / 512)).isSome := by
    cases ht : m.tab r 3 (v / 512) with
    | none =>
      rw [leaf_of_none ht, isSet_zero] at hp
      cases hp
    | some t => rfl
  have h₂ := tab_up h₃
  have h₁ := tab_up h₂
  intro x hx
  simp only [wayTo, mem_insert, mem_singleton] at hx
  rcases hx with rfl | rfl | rfl
  · exact mem_tables.mpr ⟨hs₀, by decide, h₁⟩
  · exact mem_tables.mpr ⟨hs₁, by decide, h₂⟩
  · exact mem_tables.mpr ⟨hs₂, by decide, h₃⟩

/-- The frames that the loop over new pages needs: one a page, and one for each missing table. -/
def framesForAll (m : Memory) (r p n : Nat) : Nat :=
  n + ((Finset.Ico p (p + n)).biUnion wayTo \ tables m r).card

/-- A loop that reaches its end has all pages if there were frames for all tables, and else not the
last. -/
theorem Ended.full_or_lost {o : Memory × Nat} (h : Ended res R K m r p n flags o) (hr : r ∈ R)
    (hrange : ∀ j < n, j < (freeFrames m res R K).card → p + j < userPages) (hend : ¬o.2 < n) :
    (Filled res R K m o.1 r p n flags ∧ framesForAll m r p n ≤ (freeFrames m res R K).card) ∨
      (0 < n ∧ isSet (o.1.leaf r (p + (n - 1))) ptePresent = false ∧
        (freeFrames m res R K).card < framesForAll m r p n) := by
  unfold framesForAll
  cases h with
  | full hf =>
    have hroom := hf.room_eq
    exact .inl ⟨hf, by omega⟩
  | stopped _ hlt _ => exact absurd hlt hend
  | lostLast hf heq ht hfull hway =>
    obtain ⟨hle, hless⟩ := hf.lost_room ht hfull hway hr
    subst heq
    have hv := hrange _ (Nat.lt_succ_self _) (by omega)
    rw [Nat.add_sub_cancel]
    refine .inr ⟨Nat.succ_pos _, ?_, hless⟩
    rw [← Bool.not_eq_true]
    exact fun hp => hway (way_of_present hv hp)
  | lostStopped _ hlt _ _ _ => exact absurd hlt hend

/-! ## `SYS_mmap` -/

/-- Page frames outside the allocator are the only ones that are mapped `PTE_NOPMM`. -/
def Outside (m : Memory) (res : Nat → Bool) (R : Finset Nat) : Prop :=
  ∀ r ∈ R, ∀ v < userPages, isSet (m.leaf r v) ptePresent = true →
    isSet (m.leaf r v) pteNopmm = true →
    res (frameOf (m.leaf r v)) = true ∨ m.pmm.pages ≤ frameOf (m.leaf r v)

/-- The page is present, with the protection asked for, and has a cleared frame of its own. -/
structure FreshPage (R : Finset Nat) (m : Memory) (r v prot : Nat) : Prop where
  present : isSet (m.leaf r v) ptePresent = true
  user : isSet (m.leaf r v) pteUser = true
  writable : isSet (m.leaf r v) pteWritable = true ↔ prot &&& protWrite ≠ 0
  nx : isSet (m.leaf r v) pteNx = true ↔ prot &&& protExec = 0
  zero : ∀ i, m.words (frameOf (m.leaf r v)) i = 0#64
  alone : ∀ r' ∈ R, ∀ v' < userPages, isSet (m.leaf r' v') ptePresent = true →
    frameOf (m.leaf r' v') = frameOf (m.leaf r v) → r' = r ∧ v' = v

/-- Every address of the range is mapped to a page of its own, and no other mapping has
changed. -/
structure FullyMapped (R : Finset Nat) (m m' : Memory) (t : Task) (length prot : Nat) : Prop where
  mapped : ∀ a, t.mmapNext ≤ a → a < t.mmapNext + length →
    a / pageSize < userPages ∧ FreshPage R m' t.cr3 (a / pageSize) prot
  others : ∀ r' ∈ R, ∀ v < userPages,
    ¬(r' = t.cr3 ∧ t.mmapNext ≤ v * pageSize ∧ v * pageSize < t.mmapNext + length) →
    m'.leaf r' v = m.leaf r' v

/-- The bits of the entries that `SYS_mmap` makes. -/
theorem mmapFlags_bits {f : Nat} (hf : f < 2 ^ 40) (prot flags : Nat) :
    let w := entry (f * pageSize) (mmapFlags prot flags)
    isSet w ptePresent = true ∧ isSet w pteUser = true ∧
      (isSet w pteWritable = true ↔ prot &&& protWrite ≠ 0) ∧
      (isSet w pteNx = true ↔ prot &&& protExec = 0) := by
  dsimp only
  rw [isSet_entry hf (by decide), isSet_entry hf (by decide), isSet_entry hf (by decide),
    isSet_entry hf (by decide)]
  unfold mmapFlags
  split <;> split <;> split <;> refine ⟨by decide, by decide, ?_, ?_⟩ <;>
    first
    | exact iff_of_true (by decide) (by assumption)
    | exact iff_of_false (by decide) (by assumption)

/-- What the loop has left in the range. -/
theorem Filled.freshPage (h : Filled res R K m m' r p n (mmapFlags prot flags'))
    (hm : Accounted m res R K) (hout : Outside m res R) (hr : r ∈ R) (hv : v < userPages)
    (hge : p ≤ v) (hlt : v < p + n) : FreshPage R m' r v prot := by
  obtain ⟨f, hfree, hleaf, hkept, hzero⟩ := h.filled v hv hge hlt
  obtain ⟨hfp, hres, hunused⟩ := mem_freeFrames.mp hfree
  have hsmall := Nat.lt_of_lt_of_le hfp hm.small
  obtain ⟨hpresent, huser, hwritable, hnx⟩ := mmapFlags_bits hsmall prot flags'
  have hframe : frameOf (m'.leaf r v) = f := by
    rw [hleaf]
    exact frameOf_entry hsmall (mmapFlags_page prot flags').addr
  rw [← hleaf] at hpresent huser hwritable hnx
  refine ⟨hpresent, huser, hwritable, hnx, fun i => by rw [hframe, hzero], ?_⟩
  intro r' hr' v' hv' hp' heq
  by_cases hin : r' = r ∧ p ≤ v' ∧ v' < p + n
  · obtain ⟨rfl, hge', hlt'⟩ := hin
    exact ⟨rfl, h.apart v' hv' v hv hge' hlt' hge hlt heq⟩
  · -- a page that was there before has a frame that was not free
    rw [h.leaf r' hr' v' hv' hin] at hp' heq
    rw [hframe] at heq
    cases hn : isSet (m.leaf r' v') pteNopmm with
    | false =>
      have hpos := uses_pos_of_leaf (K := K) hr' hv' (owned_eq_some.mpr ⟨⟨hp', hn⟩, heq⟩)
      omega
    | true =>
      rcases hout r' hr' v' hv' hp' hn with hres' | hle
      · rw [heq, hres] at hres'
        cases hres'
      · omega

section

variable {base length : Nat} (haligned : base % pageSize = 0)
  (hnowrap : length + (pageSize - 1) < 2 ^ 64)

include haligned hnowrap

/-- The pages of a range. -/
theorem range_pages (v : Nat) :
    base ≤ v * pageSize ∧ v * pageSize < base + length ↔
      base / pageSize ≤ v ∧ v < base / pageSize + pagesOf length := by
  unfold pagesOf
  unfold pageSize at *
  omega

/-- The addresses of a range are on its pages. -/
theorem range_addr {a : Nat} (hge : base ≤ a) (hlt : a < base + length) :
    base / pageSize ≤ a / pageSize ∧ a / pageSize < base / pageSize + pagesOf length := by
  unfold pagesOf
  unfold pageSize at *
  omega

end

/-- The arguments are refused, or the frames do not suffice and the call fails, or the length does
not wrap and there are frames for the pages and all their tables. -/
def MmapBacks (m : Memory) (t : Task) (length flags : Nat) (fd : Int) : Prop :=
  (length = 0 ∨ fd ≠ -1 ∨ flags &&& mapAnonymous = 0 ∨ flags &&& (mapShared ||| mapPrivate) = 0) ∨
    m.freeCount < framesForPages m t.cr3 (t.mmapNext / pageSize) (pagesOf length) ∨
    (length + (pageSize - 1) < 2 ^ 64 ∧
      framesForAll m t.cr3 (t.mmapNext / pageSize) (pagesOf length) ≤ m.freeCount)

theorem CallerOk.mmap_range (h : CallerOk m t res R K) (length : Nat) :
    ∀ j < pagesOf length, j < (freeFrames m res R K).card →
      t.mmapNext / pageSize + j < userPages := by
  have hroom := h.mmapRoom
  have hcount := h.accounted.freeCount_eq
  intro j _ hj
  omega

/-- `SYS_mmap` that returns its base has mapped the range in full exactly under this
condition. -/
theorem mmap_fully_mapped_iff (h : CallerOk m t res R K) (hout : Outside m res R)
    (length prot flags : Nat) (fd : Int) :
    ((sysMmap m t length prot flags fd).2.2 = t.mmapNext →
        FullyMapped R m (sysMmap m t length prot flags fd).1 t length prot) ↔
      MmapBacks m t length flags fd := by
  have haligned := h.aligned
  have hroom := h.mmapRoom
  have hcount := h.accounted.freeCount_eq
  have hrange := h.mmap_range length
  have hended := h.accounted.mapPages h.root (mmapFlags_page prot flags) hrange
  have hstop := hended.stops_iff h.root
  unfold sysMmap MmapBacks
  split
  next hbad =>
    refine iff_of_true (fun hc => ?_) (.inl hbad)
    dsimp only at hc
    rw [← hc] at haligned
    exact absurd haligned (by decide)
  next hgood =>
    rw [or_iff_right hgood]
    dsimp only
    split
    next hlt =>
      refine iff_of_true (fun hc => ?_) (.inl (hcount ▸ hstop.mp hlt))
      dsimp only at hc
      rw [← hc] at haligned
      exact absurd haligned (by decide)
    next hge =>
      have hmany : ¬m.freeCount <
          framesForPages m t.cr3 (t.mmapNext / pageSize) (pagesOf length) :=
        fun hc => hge (hstop.mpr (hcount ▸ hc))
      rw [or_iff_right hmany, forall_prop_of_true rfl]
      have hpos : 0 < length := Nat.pos_of_ne_zero fun hz => hgood (.inl hz)
      constructor
      · intro hfull
        have hlast := hfull.mapped (t.mmapNext + (length - 1)) (by omega) (by omega)
        have hnowrap : length + (pageSize - 1) < 2 ^ 64 := by
          have hin : (t.mmapNext + (length - 1)) / pageSize < 256 * 512 ^ 3 := hlast.1
          unfold pageSize at hin ⊢
          omega
        refine ⟨hnowrap, ?_⟩
        rcases hended.full_or_lost h.root hrange hge with ⟨-, henough⟩ |
          ⟨hn, hmissing, -⟩
        · rw [hcount]
          exact henough
        · -- the last page of the range is missing
          obtain ⟨hge', hlt'⟩ := (range_pages haligned hnowrap _).mpr
            ⟨Nat.le_add_right _ (pagesOf length - 1), by omega⟩
          have hpresent := (hfull.mapped _ hge' hlt').2.present
          rw [mul_pageSize_div, hmissing] at hpresent
          cases hpresent
      · rintro ⟨hnowrap, henough⟩
        rcases hended.full_or_lost h.root hrange hge with ⟨hfilled, -⟩ | ⟨-, -, hfew⟩
        · have hn : pagesOf length ≤ m.freeCount := (Nat.le_add_right _ _).trans henough
          constructor
          · intro a hge' hlt'
            obtain ⟨hlow, hhigh⟩ := range_addr haligned hnowrap hge' hlt'
            have hv : a / pageSize < userPages := by omega
            exact ⟨hv, hfilled.freshPage h.accounted hout h.root hv hlow hhigh⟩
          · intro r' hr' v hv hne
            refine hfilled.leaf r' hr' v hv fun hc => hne ⟨hc.1, ?_⟩
            exact (range_pages haligned hnowrap v).mpr hc.2
        · omega

/-- With frames for the pages and the tables of all but the last the loop reaches its end. -/
theorem CallerOk.mmap_end (h : CallerOk m t res R K) (prot flags : Nat) {length : Nat}
    (hpages : framesForPages m t.cr3 (t.mmapNext / pageSize) (pagesOf length) ≤ m.freeCount) :
    ¬(mapPages t.cr3 t.mmapNext (mmapFlags prot flags) (pagesOf length) 0 m).2 <
      pagesOf length := by
  have hcount := h.accounted.freeCount_eq
  have hended := h.accounted.mapPages h.root (mmapFlags_page prot flags) (h.mmap_range length)
  rw [hended.stops_iff h.root]
  omega

/-- The call then returns, without the last page if the frames do not suffice for its tables. -/
theorem CallerOk.mmap_lost (h : CallerOk m t res R K) (length prot flags : Nat) {fd : Int}
    (hgood : ¬(length = 0 ∨ fd ≠ -1 ∨ flags &&& mapAnonymous = 0 ∨
      flags &&& (mapShared ||| mapPrivate) = 0))
    (hpages : framesForPages m t.cr3 (t.mmapNext / pageSize) (pagesOf length) ≤ m.freeCount) :
    (sysMmap m t length prot flags fd).2.2 = t.mmapNext ∧
      (m.freeCount < framesForAll m t.cr3 (t.mmapNext / pageSize) (pagesOf length) →
        isSet ((sysMmap m t length prot flags fd).1.leaf t.cr3
          (t.mmapNext / pageSize + (pagesOf length - 1))) ptePresent = false) := by
  have hcount := h.accounted.freeCount_eq
  have hrange := h.mmap_range length
  have hended := h.accounted.mapPages h.root (mmapFlags_page prot flags) hrange
  have hge := h.mmap_end prot flags hpages
  unfold sysMmap
  rw [if_neg hgood]
  rw [if_neg hge]
  refine ⟨rfl, fun hfew => ?_⟩
  rcases hended.full_or_lost h.root hrange hge with ⟨-, henough⟩ | ⟨-, hmissing, -⟩
  · omega
  · exact hmissing

theorem framesForPages_one (m : Memory) (r p : Nat) : framesForPages m r p 1 = 1 := by
  unfold framesForPages
  rw [Nat.sub_self, Nat.add_zero, Finset.Ico_self, biUnion_empty, empty_sdiff,
    card_empty]

/-- Page `p` shares no table with page `v`. -/
theorem framesForAll_one (htables : tables m r = wayTo v)
    (hne : p / 512 / 512 / 512 ≠ v / 512 / 512 / 512) :
    framesForAll m r p 1 = 4 := by
  have hdisjoint : Disjoint (wayTo p) (wayTo v) := by
    rw [disjoint_left]
    rintro ⟨d, k⟩ hp hv
    simp only [wayTo, mem_insert, mem_singleton, Prod.mk.injEq] at hp hv
    omega
  unfold framesForAll
  rw [htables, Nat.Ico_succ_singleton, singleton_biUnion,
    sdiff_eq_self_of_disjoint hdisjoint, card_wayTo]

/-- With two or three free frames and no table, `SYS_mmap` returns without its page. -/
theorem CallerOk.mmap_one_lost (h : CallerOk m t res R K) (htables : tables m t.cr3 = wayTo v)
    (hne : t.mmapNext / pageSize / 512 / 512 / 512 ≠ v / 512 / 512 / 512) (hsome : 0 < m.freeCount)
    (hfew : m.freeCount < 4) {prot flags : Nat} (hanon : flags &&& mapAnonymous ≠ 0)
    (hkind : flags &&& (mapShared ||| mapPrivate) ≠ 0) :
    (sysMmap m t pageSize prot flags (-1)).2.2 = t.mmapNext ∧
      ¬FullyMapped R m (sysMmap m t pageSize prot flags (-1)).1 t pageSize prot := by
  have hn : pagesOf pageSize = 1 := by decide
  have hgood : ¬(pageSize = 0 ∨ (-1 : Int) ≠ -1 ∨ flags &&& mapAnonymous = 0 ∨
      flags &&& (mapShared ||| mapPrivate) = 0) := by
    rintro (hc | hc | hc | hc)
    · exact absurd hc (by decide)
    · exact hc rfl
    · exact hanon hc
    · exact hkind hc
  obtain ⟨hret, hlost⟩ := h.mmap_lost pageSize prot flags hgood
    (by rw [hn, framesForPages_one]; exact hsome)
  have hmissing := hlost (by rw [hn, framesForAll_one htables hne]; exact hfew)
  refine ⟨hret, fun hfull => ?_⟩
  have hpresent := (hfull.mapped t.mmapNext (Nat.le_refl _)
    (Nat.lt_add_of_pos_right (by decide))).2.present
  rw [hn, Nat.sub_self, Nat.add_zero] at hmissing
  rw [hmissing] at hpresent
  cases hpresent

/-- A process with one page and two free frames asks for another page. -/
theorem mmap_page_missing :
    let m := (onePage 1 1).1
    let t := caller (onePage 1 1).2
    (sysMmap m t pageSize protWrite (mapPrivate ||| mapAnonymous) (-1)).2.2 = t.mmapNext ∧
      ¬FullyMapped {(onePage 1 1).2} m
        (sysMmap m t pageSize protWrite (mapPrivate ||| mapAnonymous) (-1)).1 t pageSize
        protWrite := by
  obtain ⟨f, -, hacc, -, hfree, htables⟩ :=
    onePage_spec (v := 1) Nat.one_pos (by decide) (by decide)
  have hok := onePage_caller (v := 1) Nat.one_pos (by decide) (by decide)
  have hcount := hacc.freeCount_eq
  generalize (onePage 1 1).1 = m at *
  generalize (onePage 1 1).2 = r at *
  have hfar : (caller r).mmapNext / pageSize / 512 / 512 / 512 ≠ 1 / 512 / 512 / 512 :=
    show mmapBase / pageSize / 512 / 512 / 512 ≠ 1 / 512 / 512 / 512 by decide
  exact hok.mmap_one_lost htables hfar (by omega) (by omega) (by decide) (by decide)

theorem onePage_outside {bytes v : Nat} (hb : 0 < bytes) (hsmall : 8 * bytes ≤ 2 ^ 40)
    (hv : v < userPages) : Outside (onePage bytes v).1 onlyZero {(onePage bytes v).2} := by
  obtain ⟨f, hf, -, hleaf, -⟩ := onePage_spec hb hsmall hv
  intro r hr u hu hp hn
  rw [mem_singleton.mp hr, flags_single hf hleaf (by decide) (by decide) u hu] at hn
  cases hn

/-- A process with one page and ten free frames is given another page. -/
theorem mmap_fully_mapped_iff_onePage :
    let m := (onePage 2 1).1
    let t := caller (onePage 2 1).2
    (sysMmap m t pageSize protWrite (mapPrivate ||| mapAnonymous) (-1)).2.2 = t.mmapNext ∧
      FullyMapped {(onePage 2 1).2} m
        (sysMmap m t pageSize protWrite (mapPrivate ||| mapAnonymous) (-1)).1 t pageSize
        protWrite := by
  obtain ⟨f, -, hacc, -, hfree, htables⟩ :=
    onePage_spec (v := 1) (show 0 < 2 by decide) (by decide) (by decide)
  have hok := onePage_caller (v := 1) (show 0 < 2 by decide) (by decide) (by decide)
  have hout := onePage_outside (v := 1) (show 0 < 2 by decide) (by decide) (by decide)
  have hcount := hacc.freeCount_eq
  generalize (onePage 2 1).1 = m at *
  generalize (onePage 2 1).2 = r at *
  have hfar : (caller r).mmapNext / pageSize / 512 / 512 / 512 ≠ 1 / 512 / 512 / 512 :=
    show mmapBase / pageSize / 512 / 512 / 512 ≠ 1 / 512 / 512 / 512 by decide
  have hn : pagesOf pageSize = 1 := by decide
  have hret := (hok.mmap_lost pageSize protWrite (mapPrivate ||| mapAnonymous)
    (show ¬(_ ∨ (-1 : Int) ≠ -1 ∨ _) by decide) (by rw [hn, framesForPages_one]; omega)).1
  have hall : framesForAll m r ((caller r).mmapNext / pageSize) 1 = 4 :=
    framesForAll_one htables hfar
  exact ⟨hret, (mmap_fully_mapped_iff hok hout pageSize protWrite _ (-1)).mpr
    (.inr (.inr ⟨by decide, by rw [hn]; exact hall ▸ by omega⟩)) hret⟩

/-! ## `SYS_brk` -/

/-- A page that the process can write, after a copy-on-write fault if need be. -/
def UserWritable (w : Word) : Prop :=
  isSet w ptePresent = true ∧ isSet w pteUser = true ∧
    (isSet w pteWritable = true ∨ isSet w pteCow = true)

/-- Every page from `start` up to `stop` is there for the process to write. -/
def HeapBacked (m : Memory) (r start stop : Nat) : Prop :=
  ∀ a, start ≤ a → a < stop → a / pageSize < userPages ∧ UserWritable (m.leaf r (a / pageSize))

/-- The number of pages `SYS_brk` adds. -/
def brkPages (t : Task) (requested : Nat) : Nat :=
  (pageAlignUp requested - pageAlignUp t.brk) / pageSize

/-- The heap would be empty, or the frames do not suffice and the call fails, or what the call does
not add is backed, the break does not wrap, and there are frames for the pages and all their
tables. -/
def BrkBacks (m : Memory) (t : Task) (requested : Nat) : Prop :=
  requested ≤ t.brkStart ∨
    m.freeCount < framesForPages m t.cr3 (pageAlignUp t.brk / pageSize) (brkPages t requested) ∨
    (HeapBacked m t.cr3 t.brkStart (min requested (pageAlignUp t.brk)) ∧
      requested + (pageSize - 1) < 2 ^ 64 ∧
      framesForAll m t.cr3 (pageAlignUp t.brk / pageSize) (brkPages t requested) ≤ m.freeCount)

/-- `SYS_brk` on a break that it does not refuse at once. -/
theorem sysBrk_eq (m : Memory) {requested : Nat} (hzero : requested ≠ 0)
    (hstart : t.brkStart ≤ requested) :
    sysBrk m t requested =
      if (mapPages t.cr3 (pageAlignUp t.brk) dataFlags (brkPages t requested) 0 m).2 <
          brkPages t requested then
        ((mapPages t.cr3 (pageAlignUp t.brk) dataFlags (brkPages t requested) 0 m).1, t, t.brk)
      else
        ((mapPages t.cr3 (pageAlignUp t.brk) dataFlags (brkPages t requested) 0 m).1,
          { t with brk := requested }, requested) := by
  unfold sysBrk
  rw [if_neg hzero, if_neg (Nat.not_lt_of_le hstart)]
  rfl

theorem pageAlignUp_mod (addr : Nat) : pageAlignUp addr % pageSize = 0 := by
  unfold pageAlignUp
  exact Nat.mul_mod_left _ _

/-- An address below the new break is below the old one or on a page that was added. -/
theorem brk_addr {requested a : Nat} (hnowrap : requested + (pageSize - 1) < 2 ^ 64)
    (ha : a < requested) :
    a < pageAlignUp t.brk ∨
      (pageAlignUp t.brk / pageSize ≤ a / pageSize ∧
        a / pageSize < pageAlignUp t.brk / pageSize + brkPages t requested) := by
  have hmod := pageAlignUp_mod t.brk
  unfold brkPages
  generalize pageAlignUp t.brk = top at *
  unfold pageAlignUp
  unfold pageSize at *
  omega

/-- A page below the old break is not one that is added. -/
theorem below_break {a r' : Nat} (ha : a < pageAlignUp t.brk) :
    ¬(r' = t.cr3 ∧ pageAlignUp t.brk / pageSize ≤ a / pageSize ∧
      a / pageSize < pageAlignUp t.brk / pageSize + n) := by
  have hmod := pageAlignUp_mod t.brk
  unfold pageSize at *
  omega

/-- The last page that was added is one that the new break needs. -/
theorem brk_last {requested : Nat} (hnowrap : requested + (pageSize - 1) < 2 ^ 64)
    (hn : 0 < brkPages t requested) :
    (requested - 1) / pageSize = pageAlignUp t.brk / pageSize + (brkPages t requested - 1) := by
  have hmod := pageAlignUp_mod t.brk
  unfold brkPages at *
  generalize pageAlignUp t.brk = top at *
  unfold pageAlignUp at *
  unfold pageSize at *
  omega

theorem dataFlags_writable {f : Nat} (hf : f < 2 ^ 40) :
    UserWritable (entry (f * pageSize) dataFlags) := by
  unfold UserWritable
  rw [isSet_entry hf (by decide), isSet_entry hf (by decide), isSet_entry hf (by decide)]
  exact ⟨by decide, by decide, .inl (by decide)⟩

/-- `SYS_brk` that returns the break asked for has backed the heap exactly under this
condition. -/
theorem brk_backed_iff (h : CallerOk m t res R K) (requested : Nat) :
    (t.brkStart ≤ requested → (sysBrk m t requested).2.2 = requested →
        HeapBacked (sysBrk m t requested).1 t.cr3 t.brkStart requested) ↔
      BrkBacks m t requested := by
  have hroom := h.brkRoom
  have hcount := h.accounted.freeCount_eq
  have hrange : ∀ j < brkPages t requested, j < (freeFrames m res R K).card →
      pageAlignUp t.brk / pageSize + j < userPages := by
    intro j _ hj
    omega
  have hended := h.accounted.mapPages h.root dataFlags_page hrange
  have hstop := hended.stops_iff h.root
  unfold BrkBacks
  rcases Nat.lt_or_ge t.brkStart requested with hstart | hempty
  · have hzero : requested ≠ 0 := by omega
    rw [sysBrk_eq m hzero (Nat.le_of_lt hstart), or_iff_right (by omega),
      forall_prop_of_true (by omega)]
    split
    next hlt =>
      refine iff_of_true (fun heq => ?_) (.inl (hcount ▸ hstop.mp hlt))
      dsimp only at heq
      unfold brkPages at hlt
      rw [heq, Nat.sub_self, Nat.zero_div] at hlt
      exact absurd hlt (Nat.not_lt_zero _)
    next hge =>
      have hmany : ¬m.freeCount < framesForPages m t.cr3 (pageAlignUp t.brk / pageSize)
          (brkPages t requested) := fun hc => hge (hstop.mpr (hcount ▸ hc))
      rw [or_iff_right hmany, forall_prop_of_true rfl]
      constructor
      · intro hbacked
        obtain ⟨hin, hlast⟩ := hbacked (requested - 1) (by omega) (by omega)
        have hnowrap : requested + (pageSize - 1) < 2 ^ 64 := by
          have hin : (requested - 1) / pageSize < 256 * 512 ^ 3 := hin
          unfold pageSize at hin ⊢
          omega
        rcases hended.full_or_lost h.root hrange hge with
          ⟨hfilled, henough⟩ | ⟨hn, hmissing, -⟩
        · refine ⟨fun a hlow hhigh => ?_, hnowrap, hcount ▸ henough⟩
          obtain ⟨hv, hwritable⟩ := hbacked a hlow (by omega)
          rw [hfilled.leaf t.cr3 h.root _ hv (below_break (by omega))] at hwritable
          exact ⟨hv, hwritable⟩
        · have hpresent := hlast.1
          rw [brk_last hnowrap hn, hmissing] at hpresent
          cases hpresent
      · rintro ⟨hold, hnowrap, henough⟩
        rcases hended.full_or_lost h.root hrange hge with ⟨hfilled, -⟩ | ⟨-, -, hfew⟩
        · intro a hlow hhigh
          rcases brk_addr (t := t) hnowrap hhigh with hbelow | ⟨hfirst, hafter⟩
          · obtain ⟨hv, hwritable⟩ := hold a hlow (by omega)
            rw [hfilled.leaf t.cr3 h.root _ hv (below_break hbelow)]
            exact ⟨hv, hwritable⟩
          · have hn : brkPages t requested ≤ m.freeCount := (Nat.le_add_right _ _).trans henough
            have hv : a / pageSize < userPages := by omega
            obtain ⟨f, hfree, hleaf, -⟩ := hfilled.filled _ hv hfirst hafter
            rw [hleaf]
            have hsmall := Nat.lt_of_lt_of_le (mem_freeFrames.mp hfree).1 h.accounted.small
            exact ⟨hv, dataFlags_writable hsmall⟩
        · omega
  · refine iff_of_true (fun _ _ a hge hlt => ?_) (.inl hempty)
    omega

/-- A break at the end of the address space is accepted, with nothing mapped below it. -/
theorem brk_wraps :
    let m := (onePage 1 1).1
    let t := caller (onePage 1 1).2
    (sysBrk m t (2 ^ 64 - 1)).2.2 = 2 ^ 64 - 1 ∧
      ¬HeapBacked (sysBrk m t (2 ^ 64 - 1)).1 t.cr3 t.brkStart (2 ^ 64 - 1) := by
  generalize (onePage 1 1).1 = m
  generalize (onePage 1 1).2 = r
  have hn : brkPages (caller r) (2 ^ 64 - 1) = 0 :=
    show (pageAlignUp (2 ^ 64 - 1) - pageAlignUp (2 * pageSize)) / pageSize = 0 by decide
  have hstart : (caller r).brkStart ≤ 2 ^ 64 - 1 := show 2 * pageSize ≤ 2 ^ 64 - 1 by decide
  dsimp only
  rw [sysBrk_eq m (by decide) hstart, hn, if_neg (Nat.not_lt_zero _)]
  refine ⟨rfl, fun hbacked => ?_⟩
  have hin : (2 ^ 63 : Nat) / pageSize < userPages :=
    (hbacked (2 ^ 63) (show 2 * pageSize ≤ 2 ^ 63 by decide) (by decide)).1
  exact absurd hin (by decide)

/-- The condition at a process with one page. -/
theorem brk_backed_iff_onePage :
    ((caller (onePage 1 1).2).brkStart ≤ 3 * pageSize →
        (sysBrk (onePage 1 1).1 (caller (onePage 1 1).2) (3 * pageSize)).2.2 = 3 * pageSize →
        HeapBacked (sysBrk (onePage 1 1).1 (caller (onePage 1 1).2) (3 * pageSize)).1
          (caller (onePage 1 1).2).cr3 (caller (onePage 1 1).2).brkStart (3 * pageSize)) ↔
      BrkBacks (onePage 1 1).1 (caller (onePage 1 1).2) (3 * pageSize) :=
  brk_backed_iff (onePage_caller Nat.one_pos (by decide) (by decide)) (3 * pageSize)

end

end Aeryk.Vm
