import Aeryk.Vm.Backing

/-!
# Movements of the break

`SYS_brk` leaves pages in place when the break goes down, and maps new pages from the current break
on when it goes up again, whether they are there or not.  A page that is mapped over loses its
frame and its contents, and the frame is held by nobody.  So a sequence of calls keeps every page
as long as each call that raises the break finds the pages it adds free, and frames for them and
their tables, since a call that stops half way leaves pages above the break behind.
-/

namespace Aeryk.Vm

open Finset Lib Mem Mem.Pmm Memory

section

variable {m m' : Memory} {res : Nat → Bool} {R : Finset Nat} {K : Nat → Nat}
  {r p n v f requested : Nat} {flags : Word} {t : Task} {requests : List Nat}

def brkRun (m : Memory) (t : Task) : List Nat → Memory × Task
  | [] => (m, t)
  | requested :: rest => brkRun (sysBrk m t requested).1 (sysBrk m t requested).2.1 rest

/-- Every page of the process has the same entry and the same contents. -/
def PagesKept (r : Nat) (m m' : Memory) : Prop :=
  ∀ v < userPages, ∀ f, owned (m.leaf r v) = some f →
    m'.leaf r v = m.leaf r v ∧ m'.words f = m.words f

/-- From any moment to any later one the pages are kept, and no frame is held that nobody can
reach. -/
def Survive (res : Nat → Bool) (R : Finset Nat) (K : Nat → Nat) (m : Memory) (t : Task)
    (requests : List Nat) : Prop :=
  ∀ first next, first ++ next <+: requests →
    PagesKept t.cr3 (brkRun m t first).1 (brkRun m t (first ++ next)).1 ∧
      Accounted (brkRun m t (first ++ next)).1 res R K

/-- The call is refused or does not raise the rounded break, or there is no frame, or there are
enough and none of the pages to be added is there. -/
def BrkSafe (m : Memory) (t : Task) (requested : Nat) : Prop :=
  requested = 0 ∨ requested < t.brkStart ∨ brkPages t requested = 0 ∨ m.freeCount = 0 ∨
    (framesForAll m t.cr3 (pageAlignUp t.brk / pageSize) (brkPages t requested) ≤ m.freeCount ∧
      ∀ j < brkPages t requested,
        isSet (m.leaf t.cr3 (pageAlignUp t.brk / pageSize + j)) ptePresent = false)

/-- Every call is safe in the state in which it finds the process. -/
def AllSafe (m : Memory) (t : Task) : List Nat → Prop
  | [] => True
  | requested :: rest =>
    BrkSafe m t requested ∧ AllSafe (sysBrk m t requested).1 (sysBrk m t requested).2.1 rest

/-! ## One call -/

theorem PagesKept.refl : PagesKept r m m := fun _ _ _ _ => ⟨rfl, rfl⟩

theorem PagesKept.trans {m'' : Memory} (h : PagesKept r m m') (h' : PagesKept r m' m'') :
    PagesKept r m m'' := by
  intro v hv f hf
  obtain ⟨hleaf, hwords⟩ := h v hv f hf
  obtain ⟨hleaf', hwords'⟩ := h' v hv f (hleaf.symm ▸ hf)
  exact ⟨hleaf'.trans hleaf, hwords'.trans hwords⟩

theorem lostRefs_absent {s : Finset Nat} (h : ∀ v ∈ s, owned (m.leaf r v) = none) :
    lostRefs m r s = 0 := by
  funext f
  refine sum_eq_zero fun v hv => ?_
  rw [h v hv, one_none]
  rfl

theorem owned_of_absent {w : Word} (h : isSet w ptePresent = false) : owned w = none := by
  rw [owned, h]
  rfl

/-- A range that was free has been filled. -/
theorem Filled.kept (h : Filled res R K m m' r p n flags) (hm : Accounted m res R K) (hr : r ∈ R)
    (habsent : ∀ j < n, isSet (m.leaf r (p + j)) ptePresent = false) :
    PagesKept r m m' ∧ Accounted m' res R K := by
  have hrange : ∀ v, p ≤ v → v < p + n → owned (m.leaf r v) = none := by
    intro v hge hlt
    obtain ⟨j, rfl⟩ := Nat.exists_eq_add_of_le hge
    exact owned_of_absent (habsent j (by omega))
  constructor
  · intro v hv f hf
    refine ⟨h.leaf r hr v hv fun hc => ?_, ?_⟩
    · rw [hrange v hc.2.1 hc.2.2] at hf
      cases hf
    · exact (h.grown.page f ⟨hm.not_table_of_leaf hr hv hf, .inl (uses_pos_of_leaf hr hv hf)⟩).1
  · have hnone := lostRefs_absent (m := m) (r := r) (s := Finset.Ico p (p + n)) fun v hv =>
      hrange v (mem_Ico.mp hv).1 (mem_Ico.mp hv).2
    have hacc := h.accounted
    rw [hnone, add_zero] at hacc
    exact hacc

/-- A loop that adds no page. -/
theorem mapPages_zero (base : Nat) (flags : Word) : mapPages r base flags 0 0 m = (m, 0) := rfl

/-- The break after a call that is accepted is not above the frames there were. -/
theorem brk_room {free free' : Nat} (hroom : pageAlignUp t.brk / pageSize + free ≤ userPages)
    (hfree : free' + brkPages t requested ≤ free) :
    pageAlignUp requested / pageSize + free' ≤ userPages := by
  have hmod := pageAlignUp_mod t.brk
  have hmod' := pageAlignUp_mod requested
  unfold brkPages at hfree
  generalize pageAlignUp t.brk = top at *
  generalize pageAlignUp requested = top' at *
  unfold pageSize at *
  omega

theorem framesForPages_le (m : Memory) (r p n : Nat) :
    framesForPages m r p n ≤ framesForAll m r p n :=
  Nat.add_le_add_left (tables_mono m r p (Nat.sub_le n 1)) n

/-- With frames for all pages and tables the loop over new pages fills its range. -/
theorem Accounted.mapPages_enough {base : Nat} (h : Accounted m res R K) (hr : r ∈ R)
    (hflags : PageFlags flags) (hroom : base / pageSize + m.freeCount ≤ userPages)
    (henough : framesForAll m r (base / pageSize) n ≤ m.freeCount) :
    ¬(Vm.mapPages r base flags n 0 m).2 < n ∧
      Filled res R K m (Vm.mapPages r base flags n 0 m).1 r (base / pageSize) n flags := by
  have hcount := h.freeCount_eq
  have hrange : ∀ j < n, j < (freeFrames m res R K).card → base / pageSize + j < userPages := by
    intro j _ hj
    omega
  have hended := h.mapPages hr hflags hrange
  have hle := framesForPages_le m r (base / pageSize) n
  have hge : ¬(Vm.mapPages r base flags n 0 m).2 < n := by
    rw [hended.stops_iff hr]
    omega
  refine ⟨hge, ?_⟩
  rcases hended.full_or_lost hr hrange hge with ⟨hfilled, -⟩ | ⟨-, -, hfew⟩
  · exact hfilled
  · omega

/-- With frames for all pages and tables the call is accepted, and the range is full. -/
theorem CallerOk.brk_filled (h : CallerOk m t res R K) (hzero : requested ≠ 0)
    (hstart : t.brkStart ≤ requested)
    (henough : framesForAll m t.cr3 (pageAlignUp t.brk / pageSize) (brkPages t requested) ≤
      m.freeCount) :
    ∃ m', sysBrk m t requested = (m', { t with brk := requested }, requested) ∧
      Filled res R K m m' t.cr3 (pageAlignUp t.brk / pageSize) (brkPages t requested)
        dataFlags := by
  obtain ⟨hge, hfilled⟩ := h.accounted.mapPages_enough h.root dataFlags_page h.brkRoom henough
  rw [sysBrk_eq m hzero hstart, if_neg hge]
  exact ⟨_, rfl, hfilled⟩

/-- Each page has taken a frame. -/
theorem Filled.freeCount_le (h : Filled res R K m m' r p n flags) (hm : Accounted m res R K)
    (hr : r ∈ R) : m'.freeCount + n ≤ m.freeCount := by
  have hcount := hm.freeCount_eq
  have hcount' := h.accounted.freeCount_eq
  have hroom := h.room
  have htables := card_le_card (h.grown.tables hr)
  omega

/-- A safe call keeps the pages and the accounts, and leaves a state for the next one. -/
theorem CallerOk.brk_safe (h : CallerOk m t res R K) (hsafe : BrkSafe m t requested) :
    PagesKept t.cr3 m (sysBrk m t requested).1 ∧
      CallerOk (sysBrk m t requested).1 (sysBrk m t requested).2.1 res R K ∧
      (sysBrk m t requested).2.1.cr3 = t.cr3 := by
  have hcount := h.accounted.freeCount_eq
  by_cases hzero : requested = 0
  · unfold sysBrk
    rw [if_pos hzero]
    exact ⟨.refl, h, rfl⟩
  by_cases hlow : requested < t.brkStart
  · unfold sysBrk
    rw [if_neg hzero, if_pos hlow]
    exact ⟨.refl, h, rfl⟩
  rw [sysBrk_eq m hzero (Nat.le_of_not_lt hlow)]
  have hsafe := (hsafe.resolve_left hzero).resolve_left hlow
  rcases Nat.eq_zero_or_pos (brkPages t requested) with hnone | hsome
  · rw [hnone, mapPages_zero, if_neg (Nat.lt_irrefl 0)]
    refine ⟨.refl, ⟨h.accounted, h.root, h.mmapRoom, ?_, h.word, h.aligned⟩, rfl⟩
    exact brk_room h.brkRoom (by rw [hnone, Nat.add_zero])
  rcases Nat.eq_zero_or_pos m.freeCount with hfull | hfree
  · have hempty := card_eq_zero.mp (hcount.symm.trans hfull)
    rw [h.accounted.mapPages_none hempty hsome, if_pos hsome]
    refine ⟨.refl, ⟨h.accounted.of_nulls _, h.root, h.mmapRoom, h.brkRoom, h.word, h.aligned⟩, rfl⟩
  obtain ⟨henough, habsent⟩ :=
    (hsafe.resolve_left (Nat.ne_of_gt hsome)).resolve_left (Nat.ne_of_gt hfree)
  rw [← sysBrk_eq m hzero (Nat.le_of_not_lt hlow)]
  obtain ⟨m', heq, hfilled⟩ := h.brk_filled hzero (Nat.le_of_not_lt hlow) henough
  rw [heq]
  obtain ⟨hkept, hacc⟩ := hfilled.kept h.accounted h.root habsent
  have hless := hfilled.freeCount_le h.accounted h.root
  have hnext := h.mmapRoom
  refine ⟨hkept, ⟨hacc, h.root, ?_, brk_room h.brkRoom hless, h.word, h.aligned⟩, rfl⟩
  show t.mmapNext / pageSize + m'.freeCount ≤ userPages
  omega

/-! ## A sequence of calls -/

theorem brkRun_append (m : Memory) (t : Task) (first next : List Nat) :
    brkRun m t (first ++ next) = brkRun (brkRun m t first).1 (brkRun m t first).2 next := by
  induction first generalizing m t with
  | nil => rfl
  | cons requested first ih => exact ih _ _

theorem AllSafe.split {first next : List Nat} (h : AllSafe m t (first ++ next)) :
    AllSafe m t first ∧ AllSafe (brkRun m t first).1 (brkRun m t first).2 next := by
  induction first generalizing m t with
  | nil => exact ⟨trivial, h⟩
  | cons requested first ih => exact ⟨⟨h.1, (ih h.2).1⟩, (ih h.2).2⟩

/-- Safe calls keep the pages and the accounts. -/
theorem CallerOk.brkRun (h : CallerOk m t res R K) (hsafe : AllSafe m t requests) :
    PagesKept t.cr3 m (Vm.brkRun m t requests).1 ∧
      CallerOk (Vm.brkRun m t requests).1 (Vm.brkRun m t requests).2 res R K ∧
      (Vm.brkRun m t requests).2.cr3 = t.cr3 := by
  induction requests generalizing m t with
  | nil => exact ⟨.refl, h, rfl⟩
  | cons requested rest ih =>
    obtain ⟨hkept, hok, hroot⟩ := h.brk_safe hsafe.1
    obtain ⟨hkept', hok', hroot'⟩ := ih hok hsafe.2
    rw [hroot] at hkept' hroot'
    exact ⟨hkept.trans hkept', hok', hroot'⟩

/-- Heap pages survive every sequence of calls that are safe where they are made. -/
theorem heap_pages_survive (h : CallerOk m t res R K) (hsafe : AllSafe m t requests) :
    Survive res R K m t requests := by
  rintro first next ⟨rest, rfl⟩
  obtain ⟨hsafe', -⟩ := hsafe.split
  obtain ⟨hfirst, hnext⟩ := hsafe'.split
  obtain ⟨-, hok, hroot⟩ := h.brkRun hfirst
  obtain ⟨hkept, hok', -⟩ := hok.brkRun hnext
  rw [brkRun_append]
  rw [hroot] at hkept
  exact ⟨hkept, hok'.accounted⟩

/-! ## Up, down and up again -/

/-- A break that does not rise to another page is just noted. -/
theorem sysBrk_down (hzero : requested ≠ 0) (hstart : t.brkStart ≤ requested)
    (hn : brkPages t requested = 0) :
    sysBrk m t requested = (m, { t with brk := requested }, requested) := by
  rw [sysBrk_eq m hzero hstart, hn, mapPages_zero, if_neg (Nat.lt_irrefl 0)]

/-- A page that is filled a second time changes its frame. -/
theorem Filled.replaces (h : Filled res R K m m' r p n flags) (hm : Accounted m res R K)
    (hr : r ∈ R) (hflags : PageFlags flags) (hv : v < userPages) (hge : p ≤ v) (hlt : v < p + n)
    (hf : owned (m.leaf r v) = some f) : m'.leaf r v ≠ m.leaf r v := by
  intro hsame
  obtain ⟨g, hfree, hleaf, -⟩ := h.filled v hv hge hlt
  obtain ⟨hgp, -, hunused⟩ := mem_freeFrames.mp hfree
  rw [← hsame, hleaf, hflags.owned_entry (Nat.lt_of_lt_of_le hgp hm.small)] at hf
  cases hf
  have hpos := uses_pos_of_leaf (K := K) hr hv
    (hsame ▸ hleaf ▸ hflags.owned_entry (Nat.lt_of_lt_of_le hgp hm.small))
  omega

/-- A range that is full has its tables. -/
theorem Filled.framesForAll (h : Filled res R K m m' r p n flags) :
    Vm.framesForAll m' r p n = n := by
  unfold Vm.framesForAll
  rw [h.tables, sdiff_eq_empty_iff_subset.mpr subset_union_right, card_empty,
    Nat.add_zero]

/-- A break that goes up, down and up again maps over its pages. -/
theorem CallerOk.regrow (h : CallerOk m t res R K) (hbrk : t.brk ≠ 0) (hstart : t.brkStart ≤ t.brk)
    (hup : t.brk ≤ requested) (hn : 0 < brkPages t requested)
    (habsent : ∀ j < brkPages t requested,
      isSet (m.leaf t.cr3 (pageAlignUp t.brk / pageSize + j)) ptePresent = false)
    (henough : Vm.framesForAll m t.cr3 (pageAlignUp t.brk / pageSize) (brkPages t requested) +
      brkPages t requested ≤ m.freeCount) :
    ¬Survive res R K m t [requested, t.brk, requested] := by
  intro hsurvive
  have hzero : requested ≠ 0 := by omega
  have hroom := h.brkRoom
  obtain ⟨m₁, heq₁, hfilled₁⟩ := h.brk_filled hzero (by omega) (by omega)
  obtain ⟨-, hacc₁⟩ := hfilled₁.kept h.accounted h.root habsent
  have hdown : sysBrk m₁ { t with brk := requested } t.brk = (m₁, t, t.brk) := by
    refine sysBrk_down hbrk hstart ?_
    unfold brkPages pageSize at hn ⊢
    dsimp only
    omega
  have hless := hfilled₁.freeCount_le h.accounted h.root
  have hok₁ : CallerOk m₁ t res R K := by
    have hnext := h.mmapRoom
    exact ⟨hacc₁, h.root, by omega, by omega, h.word, h.aligned⟩
  have henough₁ : Vm.framesForAll m₁ t.cr3 (pageAlignUp t.brk / pageSize) (brkPages t requested) ≤
      m₁.freeCount := by
    have hleft := hfilled₁.room_eq
    have hcount := h.accounted.freeCount_eq
    have hcount₁ := hfilled₁.accounted.freeCount_eq
    rw [hfilled₁.framesForAll]
    unfold Vm.framesForAll at henough
    omega
  obtain ⟨m₂, heq₂, hfilled₂⟩ := hok₁.brk_filled hzero (by omega) henough₁
  have hrun : Vm.brkRun m t [requested, t.brk, requested] = (m₂, { t with brk := requested }) := by
    simp only [Vm.brkRun, heq₁, hdown, heq₂]
  obtain ⟨hkept, -⟩ := hsurvive [requested] [t.brk, requested] (List.prefix_refl _)
  have hv : pageAlignUp t.brk / pageSize < userPages := by omega
  obtain ⟨f, hfree, hleaf, -⟩ := hfilled₁.filled _ hv (Nat.le_refl _) (Nat.lt_add_of_pos_right hn)
  have hsmall := Nat.lt_of_lt_of_le (mem_freeFrames.mp hfree).1 h.accounted.small
  have howned : owned (m₁.leaf t.cr3 (pageAlignUp t.brk / pageSize)) = some f := by
    rw [hleaf, dataFlags_page.owned_entry hsmall]
  have hfirst : (Vm.brkRun m t [requested]).1 = m₁ := by simp only [Vm.brkRun, heq₁]
  rw [List.singleton_append, hrun, hfirst] at hkept
  exact hfilled₂.replaces hacc₁ h.root dataFlags_page hv (Nat.le_refl _)
    (Nat.lt_add_of_pos_right hn) howned (hkept _ hv f howned).1

/-- A page next to one that is there needs no table. -/
theorem framesForAll_next {r p v : Nat} (htables : tables m r = wayTo v)
    (hnext : p / 512 = v / 512) : framesForAll m r p 1 = 1 := by
  unfold framesForAll
  rw [htables, Nat.Ico_succ_singleton, singleton_biUnion, wayTo_congr hnext,
    Finset.sdiff_self, card_empty]

/-- The first page above the break of a process that has the page below it. -/
theorem caller_next (htables : tables m r = wayTo 1) :
    brkPages (caller r) (3 * pageSize) = 1 ∧
      framesForAll m r (pageAlignUp (caller r).brk / pageSize)
        (brkPages (caller r) (3 * pageSize)) = 1 := by
  have hn : brkPages (caller r) (3 * pageSize) = 1 :=
    show (pageAlignUp (3 * pageSize) - pageAlignUp (2 * pageSize)) / pageSize = 1 by decide
  refine ⟨hn, ?_⟩
  rw [hn]
  exact framesForAll_next htables
    (show pageAlignUp (2 * pageSize) / pageSize / 512 = 1 / 512 by decide)

/-- The pages above the break of a process with one page are free. -/
theorem caller_absent {f : Nat} (hleaf : ∀ u < userPages, m.leaf r u =
    if u = 1 then entry (f * pageSize) dataFlags else 0#64) (htables : tables m r = wayTo 1) :
    ∀ j < brkPages (caller r) (3 * pageSize),
      isSet (m.leaf (caller r).cr3 (pageAlignUp (caller r).brk / pageSize + j)) ptePresent =
        false := by
  intro j hj
  rw [(caller_next htables).1, Nat.lt_one_iff] at hj
  subst hj
  have hpage : pageAlignUp (caller r).brk / pageSize + 0 = 2 :=
    show pageAlignUp (2 * pageSize) / pageSize + 0 = 2 by decide
  rw [hpage, show (caller r).cr3 = r from rfl, hleaf 2 (by decide), if_neg (by decide), isSet_zero]

/-- The break of a process with one page goes up by a page, down and up again. -/
theorem brk_regrow_replaces :
    ¬Survive onlyZero {(onePage 1 1).2} 0 (onePage 1 1).1 (caller (onePage 1 1).2)
      [3 * pageSize, 2 * pageSize, 3 * pageSize] := by
  obtain ⟨f, -, hacc, hleaf, hfree, htables⟩ :=
    onePage_spec (v := 1) Nat.one_pos (by decide) (by decide)
  have hok := onePage_caller (v := 1) Nat.one_pos (by decide) (by decide)
  have hcount := hacc.freeCount_eq
  generalize (onePage 1 1).1 = m at *
  generalize (onePage 1 1).2 = r at *
  obtain ⟨hn, hall⟩ := caller_next htables
  refine hok.regrow (show 2 * pageSize ≠ 0 by decide) (Nat.le_refl _)
    (show 2 * pageSize ≤ 3 * pageSize by decide) (by rw [hn]; exact Nat.one_pos)
    (caller_absent hleaf htables) ?_
  rw [show (caller r).cr3 = r from rfl, hall, hn]
  omega

/-- The break goes up by a page and down again. -/
theorem heap_pages_survive_down :
    Survive onlyZero {(onePage 1 1).2} 0 (onePage 1 1).1 (caller (onePage 1 1).2)
      [3 * pageSize, 2 * pageSize] := by
  obtain ⟨f, -, hacc, hleaf, hfree, htables⟩ :=
    onePage_spec (v := 1) Nat.one_pos (by decide) (by decide)
  have hok := onePage_caller (v := 1) Nat.one_pos (by decide) (by decide)
  have hcount := hacc.freeCount_eq
  generalize (onePage 1 1).1 = m at *
  generalize (onePage 1 1).2 = r at *
  obtain ⟨hn, hall⟩ := caller_next htables
  have henough : framesForAll m (caller r).cr3 (pageAlignUp (caller r).brk / pageSize)
      (brkPages (caller r) (3 * pageSize)) ≤ m.freeCount := by
    rw [show (caller r).cr3 = r from rfl, hall]
    omega
  obtain ⟨m₁, heq, -⟩ := hok.brk_filled (show 3 * pageSize ≠ 0 by decide)
    (show 2 * pageSize ≤ 3 * pageSize by decide) henough
  refine heap_pages_survive hok ⟨?_, ?_, trivial⟩
  · exact .inr (.inr (.inr (.inr ⟨henough, caller_absent hleaf htables⟩)))
  · rw [heq]
    exact .inr (.inr (.inl
      (show (pageAlignUp (2 * pageSize) - pageAlignUp (3 * pageSize)) / pageSize = 0 by decide)))

end

end Aeryk.Vm
