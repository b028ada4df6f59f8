import Aeryk.Vm.Filling

/-!
# Memory calls that fail

`SYS_mmap` with `-ENOMEM`, `SYS_brk` with the old break and `SYS_fbmap` with `-EFAULT` or `-EBUSY`
should leave the caller as it was.  The loops of the first two keep the pages they have added
before the frames ran out, so the promise is kept exactly where not even the first page could be
had.  `SYS_fbmap` takes the frame buffer and moves `mmap_next` before it writes its answer.
-/

namespace Aeryk.Vm

open Finset Lib Mem Mem.Pmm Memory

section

variable {m m' m₁ : Memory} {res : Nat → Bool} {R : Finset Nat} {K K' : Nat → Nat}
  {r p i n f : Nat} {flags : Word}

/-! ## Frames in use -/

open Classical in
/-- The frames in use that are not page tables. -/
noncomputable def heldFrames (m : Memory) (R : Finset Nat) : Finset Nat :=
  (range m.pmm.pages).filter fun f => m.pmm.bitmapTest f = true ∧ ¬IsTable m R f

theorem Accounted.mem_heldFrames (h : Accounted m res R K) :
    f ∈ heldFrames m R ↔ f < m.pmm.pages ∧ Kept m res R K f := by
  classical
  unfold heldFrames
  rw [mem_filter, mem_range]
  refine and_congr_right fun hlt => ?_
  have hbit : m.pmm.bitmapTest f = true ↔ res f = true ∨ 0 < m.uses R K f := by
    rw [← Bool.not_eq_false, h.follows.bit f hlt, Ledger.Free, not_and_or, Bool.not_eq_false,
      Nat.pos_iff_ne_zero]
  rw [hbit, Kept, and_comm]
  refine and_congr_right fun _ => ?_
  constructor
  · rintro (hr | hpos)
    · exact .inr (.inl hr)
    · exact .inl hpos
  · rintro (hpos | hr | hle)
    · exact .inr hpos
    · exact .inl hr
    · omega

/-- A free frame has been taken for a page. -/
theorem Grown.held_lt (h : Grown res R m K m' K') (hm : Accounted m res R K)
    (h' : Accounted m' res R K') (hfree : f ∈ freeFrames m res R K)
    (hkept : Kept m' res R K' f) : (heldFrames m R).card < (heldFrames m' R).card := by
  obtain ⟨hlt, hres, hu⟩ := mem_freeFrames.mp hfree
  refine card_lt_card ⟨fun g hg => ?_, fun hsub => ?_⟩
  · obtain ⟨hglt, hgkept⟩ := hm.mem_heldFrames.mp hg
    exact h'.mem_heldFrames.mpr ⟨h.pages.symm ▸ hglt, (h.page g hgkept).2⟩
  · have hmem := hsub (h'.mem_heldFrames.mpr ⟨h.pages.symm ▸ hlt, hkept⟩)
    exact (hm.mem_heldFrames.mp hmem).2.ne_of_free hu hlt hres rfl

/-! ## When the loop stops early -/

/-- The frames that the loop over new pages has to find: one a page, and the tables of all but the
last, whose missing table goes unnoticed. -/
def framesForPages (m : Memory) (r p n : Nat) : Nat :=
  n + ((Finset.Ico p (p + (n - 1))).biUnion wayTo \ tables m r).card

theorem card_union_sdiff {α : Type} [DecidableEq α] (s t : Finset α) :
    (s ∪ t).card = s.card + (t \ s).card := by
  rw [← union_sdiff_self_eq_union, card_union_of_disjoint disjoint_sdiff]

theorem Filled.room_eq (h : Filled res R K m m₁ r p i flags) :
    (freeFrames m₁ res R (K + lostRefs m r (Finset.Ico p (p + i)))).card +
        ((Finset.Ico p (p + i)).biUnion wayTo \ Vm.tables m r).card + i =
      (freeFrames m res R K).card := by
  have hroom := h.room
  rw [h.tables, card_union_sdiff] at hroom
  omega

/-- More pages need more tables. -/
theorem tables_mono (m : Memory) (r p : Nat) {i j : Nat} (hij : i ≤ j) :
    ((Finset.Ico p (p + i)).biUnion wayTo \ tables m r).card ≤
      ((Finset.Ico p (p + j)).biUnion wayTo \ tables m r).card := by
  refine card_le_card (sdiff_subset_sdiff ?_ (Finset.Subset.refl _))
  refine biUnion_subset_biUnion_of_subset_left _ ?_
  exact Finset.Ico_subset_Ico_right (by omega)

/-- The page whose tables were missing is one for which there were too few frames. -/
theorem Filled.lost_room (h : Filled res R K m m₁ r p i flags)
    (ht : Placed res R m₁ (K + lostRefs m r (Finset.Ico p (p + i))) m' K' r (p + i) f
      fun _ => 0#64)
    (hfull : freeFrames m' res R K' = ∅) (hway : ¬wayTo (p + i) ⊆ Vm.tables m' r) (hr : r ∈ R) :
    i + 1 + ((Finset.Ico p (p + i)).biUnion wayTo \ Vm.tables m r).card ≤
        (freeFrames m res R K).card ∧
      (freeFrames m res R K).card <
        i + 1 + ((Finset.Ico p (p + (i + 1))).biUnion wayTo \ Vm.tables m r).card := by
  have hroom := h.room
  have hmore := ht.room
  rw [hfull, card_empty] at hmore
  have hgrow := card_le_card (ht.grown.tables hr)
  have hsub : Vm.tables m' r ⊂ Vm.tables m r ∪ (Finset.Ico p (p + (i + 1))).biUnion wayTo := by
    have hall : (Finset.Ico p (p + (i + 1))).biUnion wayTo =
        wayTo (p + i) ∪ (Finset.Ico p (p + i)).biUnion wayTo := by
      rw [← Nat.add_assoc, Nat.Ico_succ_right_eq_insert_Ico (Nat.le_add_right p i),
        biUnion_insert]
    refine ⟨fun x hx => ?_, fun hsup => hway ?_⟩
    · rw [hall, ← union_assoc, union_right_comm, ← h.tables]
      exact mem_union.mpr (ht.within x hx)
    · refine Finset.Subset.trans ?_ hsup
      rw [hall]
      exact subset_union_left.trans subset_union_right
  have hlt := card_lt_card hsub
  have htab := h.tables
  rw [card_union_sdiff] at hlt
  rw [htab, card_union_sdiff] at hroom hmore hgrow
  omega

/-- The loop stops early if there are too few frames. -/
theorem Ended.stops_iff {o : Memory × Nat} (h : Ended res R K m r p n flags o) (hr : r ∈ R) :
    o.2 < n ↔ (freeFrames m res R K).card < framesForPages m r p n := by
  unfold framesForPages
  cases h with
  | full hf =>
    have hroom := hf.room_eq
    have hmono := tables_mono m r p (Nat.sub_le n 1)
    exact iff_of_false (Nat.lt_irrefl n) (by omega)
  | stopped hf hlt hfull =>
    have hroom := hf.room_eq
    have hmono := tables_mono m r p (Nat.le_sub_one_of_lt hlt)
    rw [hfull, card_empty] at hroom
    exact iff_of_true hlt (by omega)
  | lostLast hf heq ht hfull hway =>
    obtain ⟨hle, -⟩ := hf.lost_room ht hfull hway hr
    subst heq
    exact iff_of_false (Nat.lt_irrefl _) (by rw [Nat.add_sub_cancel]; omega)
  | lostStopped hf hlt ht hfull hway =>
    obtain ⟨-, hless⟩ := hf.lost_room ht hfull hway hr
    have hmono := tables_mono m r p (Nat.le_sub_one_of_lt hlt)
    exact iff_of_true hlt (by omega)

/-- A loop that stops early has taken a frame for a page, if there was one. -/
theorem Ended.held_lt {o : Memory × Nat} (h : Ended res R K m r p n flags o)
    (hm : Accounted m res R K) (hstop : o.2 < n) (hne : (freeFrames m res R K).Nonempty) :
    (heldFrames m R).card < (heldFrames o.1 R).card := by
  cases h with
  | full _ => exact absurd hstop (Nat.lt_irrefl n)
  | @stopped m' i hf hlt hfull =>
    have hroom := hf.room_eq
    have hpos := card_pos.mpr hne
    have hi : 0 < i := by
      refine Nat.pos_of_ne_zero fun hz => ?_
      subst hz
      rw [hfull, card_empty, Nat.add_zero p, Finset.Ico_self, biUnion_empty,
        empty_sdiff, card_empty] at hroom
      omega
    obtain ⟨f, hfree, hkept⟩ := hf.fresh hi
    exact hf.grown.held_lt hm hf.accounted hfree hkept
  | lostLast _ _ _ _ _ => exact absurd hstop (Nat.lt_irrefl n)
  | lostStopped hf _ ht _ _ =>
    exact (hf.grown.trans ht.grown).held_lt hm ht.accounted
      (hf.grown.free hf.accounted ht.free) ht.kept

/-- With no frame at all the loop does nothing. -/
theorem Accounted.mapPages_none (h : Accounted m res R K) (hfull : freeFrames m res R K = ∅)
    (hn : 0 < n) (base : Nat) :
    Vm.mapPages r base flags n 0 m = ({ m with nulls := m.nulls + 1 }, 0) := by
  obtain ⟨n, rfl⟩ := Nat.exists_eq_succ_of_ne_zero (Nat.ne_of_gt hn)
  unfold Vm.mapPages
  rw [mapNewPage_eq, h.mapFilledPage_none hfull]

/-! ## The calls -/

/-- Mappings and break of the caller, `mmap_next`, the owner of the frame buffer and the number of
frames in use for pages are as before. -/
structure Unchanged (R : Finset Nat) (m m' : Memory) (t t' : Task) (o o' : FbOwner) : Prop where
  leaf : ∀ v < userPages, m'.leaf t.cr3 v = m.leaf t.cr3 v
  brk : t'.brk = t.brk
  mmapNext : t'.mmapNext = t.mmapNext
  owner : o' = o
  held : (heldFrames m' R).card = (heldFrames m R).card

/-- The frames of the caller are counted, and no call can fill its regions past the user half. -/
structure CallerOk (m : Memory) (t : Task) (res : Nat → Bool) (R : Finset Nat) (K : Nat → Nat) :
    Prop where
  accounted : Accounted m res R K
  root : t.cr3 ∈ R
  mmapRoom : t.mmapNext / pageSize + m.freeCount ≤ userPages
  brkRoom : pageAlignUp t.brk / pageSize + m.freeCount ≤ userPages
  word : t.mmapNext < 2 ^ 64
  aligned : t.mmapNext % pageSize = 0

variable {t : Task} {o : FbOwner}

theorem Unchanged.of_nulls (k : Nat) : Unchanged R m { m with nulls := k } t t o o :=
  ⟨fun _ _ => rfl, rfl, rfl, rfl, rfl⟩

theorem mmapFlags_page (prot flags : Nat) : PageFlags (mmapFlags prot flags) := by
  unfold mmapFlags
  split <;> split <;> split <;> exact ⟨by decide, by decide, by decide⟩

/-- A loop that stops early has changed nothing if there was no frame, and else has taken one. -/
theorem CallerOk.loop (h : CallerOk m t res R K) (hflags : PageFlags flags) (n : Nat) {base : Nat}
    (hroom : base / pageSize + m.freeCount ≤ userPages) :
    ((mapPages t.cr3 base flags n 0 m).2 < n ↔
        m.freeCount < framesForPages m t.cr3 (base / pageSize) n) ∧
      ((mapPages t.cr3 base flags n 0 m).2 < n →
        (Unchanged R m (mapPages t.cr3 base flags n 0 m).1 t t o o ↔ m.freeCount = 0)) := by
  have hcount := h.accounted.freeCount_eq
  have hrange : ∀ j < n, j < (freeFrames m res R K).card → base / pageSize + j < userPages := by
    intro j _ hj
    omega
  have hended := h.accounted.mapPages h.root hflags hrange
  refine ⟨by rw [hcount]; exact hended.stops_iff h.root, fun hstop => ⟨fun hun => ?_, fun hz => ?_⟩⟩
  · by_contra hne
    have hlt := hended.held_lt h.accounted hstop (card_pos.mp (by omega))
    have := hun.held
    omega
  · have hempty := card_eq_zero.mp (hcount.symm.trans hz)
    rw [h.accounted.mapPages_none hempty (by omega)]
    exact .of_nulls _

/-- `SYS_mmap` refuses its arguments, or has no frame to start with, or frames enough. -/
def MmapFits (m : Memory) (t : Task) (length flags : Nat) (fd : Int) : Prop :=
  (length = 0 ∨ fd ≠ -1 ∨ flags &&& mapAnonymous = 0 ∨ flags &&& (mapShared ||| mapPrivate) = 0) ∨
    m.freeCount = 0 ∨
    framesForPages m t.cr3 (t.mmapNext / pageSize) (pagesOf length) ≤ m.freeCount

theorem CallerOk.mmap_iff (h : CallerOk m t res R K) (length prot flags : Nat) (fd : Int) :
    ((sysMmap m t length prot flags fd).2.2 = errno enomem →
        Unchanged R m (sysMmap m t length prot flags fd).1 t
          (sysMmap m t length prot flags fd).2.1 o o) ↔
      MmapFits m t length flags fd := by
  unfold sysMmap MmapFits
  obtain ⟨hstop, hun⟩ := h.loop (o := o) (mmapFlags_page prot flags) (pagesOf length) h.mmapRoom
  split
  next hbad =>
    have hne : errno einval ≠ errno enomem := by decide
    exact iff_of_true (fun hc => absurd hc hne) (.inl hbad)
  next hgood =>
    rw [or_iff_right hgood]
    dsimp only
    split
    next hlt =>
      have hfew := hstop.mp hlt
      rw [or_iff_left (Nat.not_le_of_lt hfew), ← hun hlt]
      exact forall_prop_of_true rfl
    next hge =>
      have hmany := Nat.le_of_not_lt fun hc => hge (hstop.mpr hc)
      refine iff_of_true (fun hc => ?_) (.inr hmany)
      have haligned := h.aligned
      dsimp only at hc
      rw [hc] at haligned
      exact absurd haligned (by decide)

/-- `SYS_brk` is asked for the break or for less, or has no frame to start with, or frames enough.
-/
def BrkFits (m : Memory) (t : Task) (requested : Nat) : Prop :=
  (requested = 0 ∨ requested < t.brkStart) ∨ m.freeCount = 0 ∨
    framesForPages m t.cr3 (pageAlignUp t.brk / pageSize)
      ((pageAlignUp requested - pageAlignUp t.brk) / pageSize) ≤ m.freeCount

theorem CallerOk.brk_iff (h : CallerOk m t res R K) (requested : Nat) :
    ((sysBrk m t requested).2.2 ≠ requested →
        Unchanged R m (sysBrk m t requested).1 t (sysBrk m t requested).2.1 o o) ↔
      BrkFits m t requested := by
  unfold sysBrk BrkFits
  obtain ⟨hstop, hun⟩ := h.loop (o := o) dataFlags_page
    ((pageAlignUp requested - pageAlignUp t.brk) / pageSize) h.brkRoom
  split
  next hz => exact iff_of_true (fun _ => .of_nulls m.nulls) (.inl (.inl hz))
  next hz =>
    split
    next hlow => exact iff_of_true (fun _ => .of_nulls m.nulls) (.inl (.inr hlow))
    next hlow =>
      rw [or_iff_right (not_or.mpr ⟨hz, hlow⟩)]
      dsimp only
      split
      next hlt =>
        have hfew := hstop.mp hlt
        rw [or_iff_left (Nat.not_le_of_lt hfew), ← hun hlt]
        refine forall_prop_of_true ?_
        -- a loop that stops has pages to add, so the break is to move
        intro heq
        dsimp only at heq
        rw [heq, Nat.sub_self, Nat.zero_div] at hlt
        exact Nat.not_lt_zero _ hlt
      next hge =>
        have hmany := Nat.le_of_not_lt fun hc => hge (hstop.mpr hc)
        exact iff_of_true (fun hc => absurd rfl hc) (.inr hmany)

/-- `SYS_fbmap` refuses, or can write its answer, or the caller has the frame buffer already. -/
def FbmapFits (t : Task) (o : FbOwner) (fb : FrameBuffer) (copied : Bool) : Prop :=
  (o.has ∧ o.pid ≠ t.pid) ∨ copied = true ∨ (o = ⟨true, t.pid⟩ ∧ pagesOf fb.size = 0)

theorem CallerOk.fbmap_iff (h : CallerOk m t res R K) (fb : FrameBuffer) (copied : Bool) :
    ((sysFbmap m t o fb copied).2.2.2 = errno efault ∨
          (sysFbmap m t o fb copied).2.2.2 = errno ebusy →
        Unchanged R m (sysFbmap m t o fb copied).1 t (sysFbmap m t o fb copied).2.1 o
          (sysFbmap m t o fb copied).2.2.1) ↔
      FbmapFits t o fb copied := by
  have haligned := h.aligned
  have hword := h.word
  unfold sysFbmap FbmapFits
  split
  next hbusy => exact iff_of_true (fun _ => .of_nulls m.nulls) (.inl hbusy)
  next hown =>
    rw [or_iff_right hown]
    cases copied with
    | true =>
      refine iff_of_true (fun hc => ?_) (.inl rfl)
      dsimp only at hc
      rw [if_pos rfl] at hc
      rcases hc with hc | hc
      · rw [hc] at haligned
        exact absurd haligned (by decide)
      · rw [hc] at haligned
        exact absurd haligned (by decide)
    | false =>
      rw [or_iff_right Bool.false_ne_true]
      rw [if_neg Bool.false_ne_true]
      constructor
      · intro hun
        have hun := hun (.inl rfl)
        refine ⟨hun.owner.symm, ?_⟩
        have hnext := hun.mmapNext
        dsimp only at hnext
        unfold pagesOf at *
        unfold pageSize at *
        omega
      · rintro ⟨howner, hz⟩ -
        rw [hz]
        refine ⟨fun _ _ => rfl, rfl, ?_, howner.symm, rfl⟩
        rw [Nat.zero_mul, Nat.add_zero, Nat.mod_eq_of_lt hword]

/-- With fewer frames than pages `SYS_mmap` fails, and keeps what it has taken. -/
theorem CallerOk.mmap_keeps (h : CallerOk m t res R K) {length prot flags : Nat} {fd : Int}
    (hgood : ¬(length = 0 ∨ fd ≠ -1 ∨ flags &&& mapAnonymous = 0 ∨
      flags &&& (mapShared ||| mapPrivate) = 0))
    (hsome : 0 < m.freeCount) (hfew : m.freeCount < pagesOf length) :
    (sysMmap m t length prot flags fd).2.2 = errno enomem ∧
      ¬Unchanged R m (sysMmap m t length prot flags fd).1 t
        (sysMmap m t length prot flags fd).2.1 o o := by
  refine Classical.not_imp.mp (mt (h.mmap_iff length prot flags fd).mp ?_)
  unfold MmapFits framesForPages
  rw [or_iff_right hgood]
  omega

/-- A memory call that fails leaves the caller as it was exactly under these conditions. -/
theorem failed_calls_atomic_iff (h : CallerOk m t res R K) (o : FbOwner) (fb : FrameBuffer) :
    (∀ length prot flags fd,
      ((sysMmap m t length prot flags fd).2.2 = errno enomem →
          Unchanged R m (sysMmap m t length prot flags fd).1 t
            (sysMmap m t length prot flags fd).2.1 o o) ↔
        MmapFits m t length flags fd) ∧
    (∀ requested,
      ((sysBrk m t requested).2.2 ≠ requested →
          Unchanged R m (sysBrk m t requested).1 t (sysBrk m t requested).2.1 o o) ↔
        BrkFits m t requested) ∧
    ∀ copied,
      ((sysFbmap m t o fb copied).2.2.2 = errno efault ∨
            (sysFbmap m t o fb copied).2.2.2 = errno ebusy →
          Unchanged R m (sysFbmap m t o fb copied).1 t (sysFbmap m t o fb copied).2.1 o
            (sysFbmap m t o fb copied).2.2.1) ↔
        FbmapFits t o fb copied :=
  ⟨h.mmap_iff, h.brk_iff, h.fbmap_iff fb⟩

/-- A process whose address space has the root `r`, with nothing mapped by calls so far. -/
def caller (r : Nat) : Task where
  pid := 1
  cr3 := r
  kernelStack := 0
  brkStart := 2 * pageSize
  brk := 2 * pageSize
  mmapNext := mmapBase

theorem onePage_caller {bytes v : Nat} (hb : 0 < bytes) (hsmall : bytes ≤ 2 ^ 20)
    (hv : v < userPages) :
    CallerOk (onePage bytes v).1 (caller (onePage bytes v).2) onlyZero {(onePage bytes v).2} 0 := by
  obtain ⟨f, -, hacc, -, hfree, -⟩ := onePage_spec hb (by omega) hv
  have hcount := hacc.freeCount_eq
  exact
    { accounted := hacc
      root := mem_singleton_self _
      mmapRoom := by
        have hbase : mmapBase / pageSize + 8 * 2 ^ 20 ≤ userPages := by decide
        have hle : (onePage bytes v).1.freeCount ≤ 8 * 2 ^ 20 := by omega
        exact (Nat.add_le_add_left hle _).trans hbase
      brkRoom := by
        have hbase : pageAlignUp (2 * pageSize) / pageSize + 8 * 2 ^ 20 ≤ userPages := by decide
        have hle : (onePage bytes v).1.freeCount ≤ 8 * 2 ^ 20 := by omega
        exact (Nat.add_le_add_left hle _).trans hbase
      word := show mmapBase < 2 ^ 64 by decide
      aligned := show mmapBase % pageSize = 0 by decide }

/-- With two frames left a `SYS_mmap` for three pages fails and keeps a frame, and a `SYS_fbmap`
that cannot write its answer keeps the frame buffer. -/
theorem failed_calls_keep :
    let m := (onePage 1 1).1
    let t := caller (onePage 1 1).2
    let o : FbOwner := ⟨false, 0⟩
    ((sysMmap m t (3 * pageSize) protWrite (mapPrivate ||| mapAnonymous) (-1)).2.2 = errno enomem ∧
      ¬Unchanged {(onePage 1 1).2} m
        (sysMmap m t (3 * pageSize) protWrite (mapPrivate ||| mapAnonymous) (-1)).1 t
        (sysMmap m t (3 * pageSize) protWrite (mapPrivate ||| mapAnonymous) (-1)).2.1 o o) ∧
    ((sysFbmap m t o ⟨0, pageSize⟩ false).2.2.2 = errno efault ∧
      ¬Unchanged {(onePage 1 1).2} m (sysFbmap m t o ⟨0, pageSize⟩ false).1 t
        (sysFbmap m t o ⟨0, pageSize⟩ false).2.1 o (sysFbmap m t o ⟨0, pageSize⟩ false).2.2.1) := by
  obtain ⟨f, -, hacc, -, hfree, -⟩ := onePage_spec (v := 1) Nat.one_pos (by decide) (by decide)
  have hok := onePage_caller (v := 1) Nat.one_pos (by decide) (by decide)
  have hcount := hacc.freeCount_eq
  generalize (onePage 1 1).1 = m at *
  generalize (onePage 1 1).2 = r at *
  constructor
  · exact hok.mmap_keeps (by decide) (by omega) (show m.freeCount < 3 by omega)
  · exact ⟨rfl, fun hun => Bool.noConfusion (congrArg FbOwner.has hun.owner)⟩

/-- The conditions at a process with one page. -/
theorem failed_calls_atomic_iff_onePage :
    CallerOk (onePage 1 1).1 (caller (onePage 1 1).2) onlyZero {(onePage 1 1).2} 0 ∧
    ∀ requested,
      ((sysBrk (onePage 1 1).1 (caller (onePage 1 1).2) requested).2.2 ≠ requested →
          Unchanged {(onePage 1 1).2} (onePage 1 1).1
            (sysBrk (onePage 1 1).1 (caller (onePage 1 1).2) requested).1
            (caller (onePage 1 1).2)
            (sysBrk (onePage 1 1).1 (caller (onePage 1 1).2) requested).2.1 ⟨false, 0⟩ ⟨false, 0⟩) ↔
        BrkFits (onePage 1 1).1 (caller (onePage 1 1).2) requested :=
  have hok := onePage_caller (v := 1) Nat.one_pos (by decide) (by decide)
  ⟨hok, (failed_calls_atomic_iff hok ⟨false, 0⟩ ⟨0, pageSize⟩).2.1⟩

end

end Aeryk.Vm
