import Aeryk.Mem.Pmm

/-!
# First fit

`Ledger` is the page allocator as its callers see it: some pages are reserved, each other page has
a number of outstanding references, and is free if it has none.  The ledger of a run is computed
from the calls and the answers of `pmm_alloc_page`, never from the bitmap or the counts.

`Tracks` connects the two and is kept by each of the three calls.  Page `0` is reserved in it,
since its address is the `NULL` that says that no page is free (`allocPage_zero_null`).

The stored counts have 16 bits, so the work is done with the weaker `Follows`, where a count is
right modulo 65536.  A reference is dropped from a page with at most 65535.
-/

namespace Aeryk.Mem

open Function

/-- The pages as the callers of the allocator know them. -/
structure Ledger where
  /-- The pages that are not given out. -/
  reserved : Nat → Bool
  /-- The references outstanding to a page. -/
  refs : Nat → Nat

inductive Call where
  | alloc
  | refInc (page : Nat)
  | free (page : Nat)
deriving DecidableEq

namespace Ledger

def Free (L : Ledger) (i : Nat) : Prop := L.reserved i = false ∧ L.refs i = 0

instance (L : Ledger) (i : Nat) : Decidable (L.Free i) := inferInstanceAs (Decidable (_ ∧ _))

def put (L : Ledger) (i n : Nat) : Ledger := { L with refs := update L.refs i n }

/-- The ledger after a call, and after an allocation by what it answered. -/
def after (L : Ledger) (answer : Nat) : Call → Ledger
  | .alloc => if answer = 0 then L else L.put (answer / pageSize) (L.refs (answer / pageSize) + 1)
  | .refInc page => L.put (page / pageSize) (L.refs (page / pageSize) + 1)
  | .free page => L.put (page / pageSize) (L.refs (page / pageSize) - 1)

/-- The calls a caller may make: a reference is added to an allocated page with fewer than 65535 of
them, and dropped from an allocated page or a free one. -/
def Permits (L : Ledger) (pages : Nat) : Call → Prop
  | .alloc => True
  | .refInc page => page / pageSize < pages ∧ L.reserved (page / pageSize) = false ∧
    0 < L.refs (page / pageSize) ∧ L.refs (page / pageSize) < 65535
  | .free page => page / pageSize < pages ∧ L.reserved (page / pageSize) = false

instance (L : Ledger) (pages : Nat) : (c : Call) → Decidable (L.Permits pages c)
  | .alloc => inferInstanceAs (Decidable True)
  | .refInc _ => inferInstanceAs (Decidable (_ ∧ _ ∧ _ ∧ _))
  | .free _ => inferInstanceAs (Decidable (_ ∧ _))

/-- What `pmm_alloc_page` is to answer: the lowest free page, and `NULL` if and only if there is
none. -/
def LowestFree (L : Ledger) (pages answer : Nat) : Prop :=
  (answer = 0 ↔ ∀ i < pages, ¬L.Free i) ∧
    (answer ≠ 0 → ∃ i < pages, answer = i * pageSize ∧ L.Free i ∧ ∀ j < i, ¬L.Free j)

@[simp] theorem put_reserved (L : Ledger) (i n : Nat) : (L.put i n).reserved = L.reserved := rfl

@[simp] theorem put_refs_same (L : Ledger) (i n : Nat) : (L.put i n).refs i = n :=
  update_self ..

theorem put_refs_ne (L : Ledger) {i j : Nat} (n : Nat) (h : j ≠ i) :
    (L.put i n).refs j = L.refs j :=
  update_of_ne h ..

end Ledger

namespace Pmm

variable {m : Pmm} {L : Ledger} {i j page : Nat}

def call (m : Pmm) : Call → Pmm × Nat
  | .alloc => m.pmmAllocPage
  | .refInc page => (m.pmmPageRefInc page, 0)
  | .free page => (m.pmmFreePage page, 0)

def advance (s : Pmm × Ledger) (c : Call) : Pmm × Ledger :=
  ((s.1.call c).1, s.2.after (s.1.call c).2 c)

/-- The allocator and its ledger after a sequence of calls. -/
def run (s : Pmm × Ledger) (cs : List Call) : Pmm × Ledger := cs.foldl advance s

/-- Every call of the sequence is one its caller may make. -/
def Permitted (s : Pmm × Ledger) : List Call → Prop
  | [] => True
  | c :: cs => s.2.Permits s.1.pages c ∧ Permitted (advance s c) cs

instance Permitted.decidable (s : Pmm × Ledger) : (cs : List Call) → Decidable (Permitted s cs)
  | [] => inferInstanceAs (Decidable True)
  | _ :: cs => @instDecidableAnd _ _ _ (Permitted.decidable _ cs)

/-- A ledger to start with.  A page whose bit is set is reserved, or has as many references as its
count says, and at least one. -/
structure Opens (m : Pmm) (L : Ledger) : Prop where
  reserved : ∀ i < m.pages, L.reserved i = true → m.bitmapTest i = true
  counted : ∀ i < m.pages, L.reserved i = false → m.bitmapTest i = true →
    0 < L.refs i ∧ L.refs i = m.refcount i
  unused : ∀ i < m.pages, m.bitmapTest i = false → L.refs i = 0

/-- The bitmap, the counts and the hint agree with a ledger. -/
structure Tracks (m : Pmm) (L : Ledger) : Prop where
  covers : m.Covers
  /-- A bit is clear exactly at a free page. -/
  bit : ∀ i < m.pages, m.bitmapTest i = false ↔ L.Free i
  /-- The stored count is the number of references. -/
  count : ∀ i < m.pages, L.reserved i = false → 0 < L.refs i → m.refcount i = L.refs i
  /-- Every page below the hint is allocated. -/
  hint : ∀ i < m.bitmapIndex, m.bitmapTest i = true
  index_le : m.bitmapIndex ≤ m.pages
  zero : L.reserved 0 = true

/-- The same with counts that may have wrapped around. -/
structure Follows (m : Pmm) (L : Ledger) : Prop where
  covers : m.Covers
  bit : ∀ i < m.pages, m.bitmapTest i = false ↔ L.Free i
  /-- The stored count has 16 bits of the number of references. -/
  count : ∀ i < m.pages, L.reserved i = false → 0 < L.refs i → m.refcount i = L.refs i % 65536
  hint : ∀ i < m.bitmapIndex, m.bitmapTest i = true
  index_le : m.bitmapIndex ≤ m.pages
  zero : L.reserved 0 = true

theorem Tracks.refs_lt (h : Tracks m L) (hp : i < m.pages) (hr : L.reserved i = false) :
    L.refs i < 65536 := by
  rcases Nat.eq_zero_or_pos (L.refs i) with hz | hpos
  · omega
  · rw [← h.count i hp hr hpos]
    exact m.refcount_lt i

theorem Tracks.follows (h : Tracks m L) : Follows m L where
  covers := h.covers
  bit := h.bit
  count i hp hr hpos := by
    rw [h.count i hp hr hpos, Nat.mod_eq_of_lt (h.refs_lt hp hr)]
  hint := h.hint
  index_le := h.index_le
  zero := h.zero

theorem Follows.tracks (h : Follows m L)
    (hlt : ∀ i < m.pages, L.reserved i = false → L.refs i < 65536) : Tracks m L where
  covers := h.covers
  bit := h.bit
  count i hp hr hpos := by
    rw [h.count i hp hr hpos, Nat.mod_eq_of_lt (hlt i hp hr)]
  hint := h.hint
  index_le := h.index_le
  zero := h.zero

theorem Opens.tracks (h : Opens m L) (hc : m.Covers) (hi : m.bitmapIndex = 0)
    (h0 : L.reserved 0 = true) : Tracks m L where
  covers := hc
  bit i hp := by
    constructor
    · intro hb
      cases hr : L.reserved i with
      | false => exact ⟨hr, h.unused i hp hb⟩
      | true =>
        have hset := h.reserved i hp hr
        rw [hb] at hset
        exact absurd hset Bool.false_ne_true
    · rintro ⟨hr, hn⟩
      cases hb : m.bitmapTest i with
      | false => rfl
      | true =>
        have hpos := (h.counted i hp hr hb).1
        omega
  count i hp hr hn := by
    cases hb : m.bitmapTest i with
    | false =>
      have hz := h.unused i hp hb
      omega
    | true => exact (h.counted i hp hr hb).2.symm
  hint i hlt := by
    rw [hi] at hlt
    omega
  index_le := by
    rw [hi]
    exact Nat.zero_le _
  zero := h0

/-! ## One call -/

theorem Follows.set_of_not_free (h : Follows m L) (hp : i < m.pages) (hn : ¬L.Free i) :
    m.bitmapTest i = true := by
  cases hb : m.bitmapTest i with
  | true => rfl
  | false => exact absurd ((h.bit i hp).mp hb) hn

/-- The search from the hint finds the lowest free page, and the second loop never finds one. -/
theorem Follows.allocPage_eq (h : Follows m L) :
    (∃ i < m.pages, m.pmmAllocPage = m.take i ∧ L.Free i ∧ ∀ j < i, ¬L.Free j) ∨
      (m.pmmAllocPage = (m, 0) ∧ ∀ i < m.pages, ¬L.Free i) := by
  have hbelow : m.scan 0 m.bitmapIndex = none := by
    cases hs : m.scan 0 m.bitmapIndex with
    | none => rfl
    | some i =>
      obtain ⟨-, hlt, hb, -⟩ := scan_eq_some hs
      rw [h.hint i hlt] at hb
      exact absurd hb Bool.true_eq_false.mp
  cases hs : m.scan m.bitmapIndex m.pages with
  | some i =>
    obtain ⟨hlo, hp, hb, hmin⟩ := scan_eq_some hs
    refine .inl ⟨i, hp, by rw [pmmAllocPage, hs], (h.bit i hp).mp hb, ?_⟩
    intro j hj hf
    have hclear := (h.bit j (by omega)).mpr hf
    -- below the hint by the invariant, from the hint on by the search
    have hset : m.bitmapTest j = true := by
      rcases Nat.lt_or_ge j m.bitmapIndex with hlt | hge
      · exact h.hint j hlt
      · exact hmin j hge hj
    rw [hclear] at hset
    exact Bool.false_ne_true hset
  | none =>
    refine .inr ⟨by rw [pmmAllocPage, hs]; simp only [hbelow], ?_⟩
    intro i hp hf
    have hclear := (h.bit i hp).mpr hf
    have hset : m.bitmapTest i = true := by
      rcases Nat.lt_or_ge i m.bitmapIndex with hlt | hge
      · exact h.hint i hlt
      · exact scan_eq_none hs hge hp
    rw [hclear] at hset
    exact Bool.false_ne_true hset

theorem Follows.pos_of_free (h : Follows m L) (hf : L.Free i) : 0 < i := by
  rcases Nat.eq_zero_or_pos i with rfl | hpos
  · rw [Ledger.Free, h.zero] at hf
    exact absurd hf.1 Bool.true_eq_false.mp
  · exact hpos

theorem mul_pageSize_div (i : Nat) : i * pageSize / pageSize = i :=
  Nat.mul_div_cancel i (by decide)

/-- What keeps the ledger right with `n` references to page `i`: the bit of `i` says whether there
are any, the count of `i` how many, and nothing else changes. -/
theorem Follows.put {m' : Pmm} {n : Nat} (h : Follows m L) (hr : L.reserved i = false)
    (hsize : m'.bitmapSize = m.bitmapSize) (hpages : m'.pages = m.pages)
    (hbit : ∀ j < m.pages, m'.bitmapTest j = if j = i then decide (0 < n) else m.bitmapTest j)
    (hsame : ∀ j < m.pages, j ≠ i → m'.refcount j = m.refcount j)
    (hcount : 0 < n → m'.refcount i = n % 65536)
    (hhint : ∀ j < m'.bitmapIndex, m'.bitmapTest j = true) (hle : m'.bitmapIndex ≤ m.pages) :
    Follows m' (L.put i n) where
  covers := by
    rw [Covers, hpages, hsize]
    exact h.covers
  bit j hj := by
    rw [hpages] at hj
    rw [hbit j hj]
    by_cases hji : j = i
    · subst hji
      simp [Ledger.Free, hr]
    · rw [if_neg hji, h.bit j hj, Ledger.Free, Ledger.Free, L.put_refs_ne n hji, L.put_reserved]
  count j hj hres hpos := by
    rw [hpages] at hj
    by_cases hji : j = i
    · subst hji
      rw [L.put_refs_same] at hpos ⊢
      exact hcount hpos
    · rw [L.put_refs_ne n hji] at hpos ⊢
      rw [hsame j hj hji]
      exact h.count j hj hres hpos
  hint := hhint
  index_le := hpages ▸ hle
  zero := h.zero

theorem bitmapTest_take (hc : m.Covers) (hj : j < m.pages) :
    (m.take i).1.bitmapTest j = (decide (j = i) || m.bitmapTest j) :=
  (bitmapTest_setRefcount (m := { m.bitmapSet i with bitmapIndex := i }) hc hj 1).trans
    bitmapTest_bitmapSet

theorem refcount_take_ne (hc : m.Covers) (hi : i < m.pages) (h : j ≠ i) :
    (m.take i).1.refcount j = m.refcount j :=
  (refcount_setRefcount_ne h 1).trans (refcount_bitmapSet hc hi)

theorem Follows.take (h : Follows m L) (hp : i < m.pages) (hf : L.Free i)
    (hmin : ∀ j < i, ¬L.Free j) : Follows (m.take i).1 (L.put i 1) := by
  refine h.put hf.1 rfl rfl ?_ ?_ ?_ ?_ (Nat.le_of_lt hp)
  · intro j hj
    rw [bitmapTest_take h.covers hj]
    by_cases hji : j = i
    · simp [hji]
    · simp [hji]
  · intro j _ hji
    exact refcount_take_ne h.covers hp hji
  · intro _
    exact refcount_setRefcount_same 1
  · intro j hj
    have hji : j < i := hj
    have hset := h.set_of_not_free (by omega) (hmin j hji)
    rw [bitmapTest_take h.covers (by omega), hset, Bool.or_true]

theorem Follows.pmmPageRefInc (h : Follows m L) (hp : page / pageSize < m.pages)
    (hr : L.reserved (page / pageSize) = false) (hpos : 0 < L.refs (page / pageSize)) :
    Follows (m.pmmPageRefInc page) (L.put (page / pageSize) (L.refs (page / pageSize) + 1)) := by
  have hset : m.bitmapTest (page / pageSize) = true :=
    h.set_of_not_free hp fun hf => absurd hf.2 (Nat.ne_of_gt hpos)
  refine h.put hr rfl rfl ?_ ?_ ?_ ?_ h.index_le
  · intro j hj
    rw [Pmm.pmmPageRefInc, bitmapTest_setRefcount h.covers hj]
    by_cases hji : j = page / pageSize
    · simp [hji, hset]
    · simp [hji]
  · intro j _ hji
    exact refcount_setRefcount_ne hji _
  · intro _
    rw [Pmm.pmmPageRefInc, refcount_setRefcount_same, h.count _ hp hr hpos, Nat.mod_add_mod]
  · intro j hj
    have hjp : j < m.pages := Nat.lt_of_lt_of_le hj h.index_le
    rw [Pmm.pmmPageRefInc, bitmapTest_setRefcount h.covers hjp]
    exact h.hint j hj

/-- Freeing a page that is free changes nothing. -/
theorem Follows.pmmFreePage_free (h : Follows m L) (hp : page / pageSize < m.pages)
    (hf : L.Free (page / pageSize)) : m.pmmFreePage page = m :=
  if_pos ((h.bit _ hp).mpr hf)

theorem dropRef_eq (h : 0 < m.refcount i) :
    m.dropRef i = m.setRefcount i (m.refcount i - 1) :=
  if_pos h

theorem refcount_dropRef (h : 0 < m.refcount i) :
    (m.dropRef i).refcount i = m.refcount i - 1 := by
  have hlt := m.refcount_lt i
  rw [dropRef_eq h, refcount_setRefcount_same]
  omega

theorem covers_dropRef (h : m.Covers) : (m.dropRef i).Covers := by
  unfold Pmm.dropRef
  split <;> exact h

theorem pages_dropRef (m : Pmm) (i : Nat) : (m.dropRef i).pages = m.pages := by
  unfold Pmm.dropRef
  split <;> rfl

theorem refcount_dropRef_ne (h : j ≠ i) : (m.dropRef i).refcount j = m.refcount j := by
  unfold Pmm.dropRef
  split
  · exact refcount_setRefcount_ne h _
  · rfl

/-- `pmm_free_page` on an allocated page: the last reference releases it, any other is counted off.
-/
theorem pmmFreePage_eq (hb : m.bitmapTest (page / pageSize) = true)
    (hpos : 0 < m.refcount (page / pageSize)) :
    m.pmmFreePage page =
      if m.refcount (page / pageSize) = 1 then
        (m.dropRef (page / pageSize)).release (page / pageSize)
      else m.dropRef (page / pageSize) := by
  have hiff : (m.dropRef (page / pageSize)).refcount (page / pageSize) = 0 ↔
      m.refcount (page / pageSize) = 1 := by
    rw [refcount_dropRef hpos]
    omega
  simp only [Pmm.pmmFreePage, hb, Bool.true_eq_false, if_false, hiff]

theorem bitmapTest_release (m : Pmm) (i j : Nat) :
    (m.release i).bitmapTest j = (!decide (j = i) && m.bitmapTest j) := by
  unfold release
  split
  · exact bitmapTest_bitmapClear
  · exact bitmapTest_bitmapClear

theorem refcount_release (hc : m.Covers) (hi : i < m.pages) :
    (m.release i).refcount j = m.refcount j := by
  unfold release
  split
  · exact refcount_bitmapClear hc hi
  · exact refcount_bitmapClear hc hi

theorem bitmapIndex_release (m : Pmm) (i : Nat) :
    (m.release i).bitmapIndex = min i m.bitmapIndex := by
  unfold release
  split
  next h => exact (Nat.min_eq_left (Nat.le_of_lt h)).symm
  next h => exact (Nat.min_eq_right (Nat.le_of_not_lt h)).symm

theorem release_pages (m : Pmm) (i : Nat) :
    (m.release i).bitmapSize = m.bitmapSize ∧ (m.release i).pages = m.pages := by
  unfold release
  split <;> exact ⟨rfl, rfl⟩

theorem Follows.dropRef (h : Follows m L) (hp : i < m.pages) (hr : L.reserved i = false)
    (hn : 2 ≤ L.refs i) (hlt : L.refs i < 65536) :
    Follows (m.dropRef i) (L.put i (L.refs i - 1)) := by
  have hcount := h.count i hp hr (by omega)
  rw [Nat.mod_eq_of_lt hlt] at hcount
  have hset : m.bitmapTest i = true := h.set_of_not_free hp fun hf => by
    have := hf.2
    omega
  have htest : ∀ j < m.pages, (m.dropRef i).bitmapTest j = m.bitmapTest j := by
    intro j hj
    rw [dropRef_eq (by omega)]
    exact bitmapTest_setRefcount h.covers hj _
  have heq : m.dropRef i = m.setRefcount i (m.refcount i - 1) := dropRef_eq (by omega)
  refine h.put hr (by rw [heq]; rfl) (by rw [heq]; rfl) ?_ ?_ ?_ ?_ (by rw [heq]; exact h.index_le)
  · intro j hj
    rw [htest j hj]
    by_cases hji : j = i
    · have hpos : 0 < L.refs i - 1 := by omega
      simp [hji, hset, hpos]
    · simp [hji]
  · intro j _ hji
    rw [heq]
    exact refcount_setRefcount_ne hji _
  · intro _
    rw [refcount_dropRef (by omega), hcount, Nat.mod_eq_of_lt (by omega)]
  · intro j hj
    have hj' : j < m.bitmapIndex := by
      rw [heq] at hj
      exact hj
    rw [htest j (Nat.lt_of_lt_of_le hj' h.index_le)]
    exact h.hint j hj'

theorem Follows.release (h : Follows m L) (hp : i < m.pages) (hr : L.reserved i = false)
    (hn : L.refs i = 1) : Follows ((m.dropRef i).release i) (L.put i 0) := by
  have hcount := h.count i hp hr (by omega)
  have heq : m.dropRef i = m.setRefcount i (m.refcount i - 1) := dropRef_eq (by omega)
  have hcov : (m.dropRef i).Covers := by
    rw [heq]
    exact h.covers
  have hpages : (m.dropRef i).pages = m.pages := by
    rw [heq]
    rfl
  have htest : ∀ j < m.pages, (m.dropRef i).bitmapTest j = m.bitmapTest j := by
    intro j hj
    rw [heq]
    exact bitmapTest_setRefcount h.covers hj _
  have hindex : ((m.dropRef i).release i).bitmapIndex = min i m.bitmapIndex := by
    rw [bitmapIndex_release, heq]
    rfl
  refine h.put hr ?_ ?_ ?_ ?_ (fun hlt => absurd hlt (Nat.lt_irrefl 0)) ?_ ?_
  · rw [(release_pages _ i).1, heq]
    rfl
  · rw [(release_pages _ i).2, hpages]
  · intro j hj
    rw [bitmapTest_release, htest j hj]
    by_cases hji : j = i
    · simp [hji]
    · simp [hji]
  · intro j _ hji
    rw [refcount_release hcov (hpages ▸ hp), heq]
    exact refcount_setRefcount_ne hji _
  · intro j hj
    rw [hindex] at hj
    have hlt : j < i ∧ j < m.bitmapIndex := by omega
    rw [bitmapTest_release, htest j (by omega), h.hint j hlt.2]
    simp [Nat.ne_of_lt hlt.1]
  · rw [hindex]
    omega

theorem Follows.pmmFreePage (h : Follows m L) (hp : page / pageSize < m.pages)
    (hr : L.reserved (page / pageSize) = false) (hlt : L.refs (page / pageSize) < 65536) :
    Follows (m.pmmFreePage page) (L.put (page / pageSize) (L.refs (page / pageSize) - 1)) := by
  rcases Nat.eq_zero_or_pos (L.refs (page / pageSize)) with hz | hpos
  · have hsame : L.put (page / pageSize) (L.refs (page / pageSize) - 1) = L := by
      rw [Ledger.put, hz, Nat.zero_sub, ← hz, update_eq_self]
    rw [h.pmmFreePage_free hp ⟨hr, hz⟩, hsame]
    exact h
  · have hcount := h.count _ hp hr hpos
    rw [Nat.mod_eq_of_lt hlt] at hcount
    have hset : m.bitmapTest (page / pageSize) = true :=
      h.set_of_not_free hp fun hf => absurd hf.2 (Nat.ne_of_gt hpos)
    rw [pmmFreePage_eq hset (by omega)]
    split
    next hone =>
      have hone' : L.refs (page / pageSize) = 1 := hcount.symm.trans hone
      rw [hone']
      exact h.release hp hr hone'
    next hne => exact h.dropRef hp hr (by omega) hlt

theorem covers_pmmFreePage (h : m.Covers) (page : Nat) : (m.pmmFreePage page).Covers := by
  unfold Pmm.pmmFreePage
  dsimp only
  split
  · exact h
  · split
    · have hdrop := covers_dropRef (i := page / pageSize) h
      obtain ⟨hsize, hpages⟩ := release_pages (m.dropRef (page / pageSize)) (page / pageSize)
      rw [Covers, hpages, hsize]
      exact hdrop
    · exact covers_dropRef h

/-- The counts after `pmm_free_page`, whatever they were. -/
theorem refcount_pmmFreePage (page j : Nat) (hc : m.Covers) (hp : page / pageSize < m.pages) :
    (m.pmmFreePage page).refcount j =
      if j = page / pageSize ∧ m.bitmapTest j = true then m.refcount j - 1 else m.refcount j := by
  have hdrop : ((m.dropRef (page / pageSize)).release (page / pageSize)).refcount j =
      (m.dropRef (page / pageSize)).refcount j :=
    refcount_release (covers_dropRef hc) (by rw [pages_dropRef]; exact hp)
  unfold Pmm.pmmFreePage
  dsimp only
  generalize page / pageSize = i at *
  split
  next hclear =>
    rw [if_neg]
    rintro ⟨rfl, hset⟩
    rw [hclear] at hset
    cases hset
  next hset =>
    have hcount : (m.dropRef i).refcount j =
        if j = i ∧ m.bitmapTest j = true then m.refcount j - 1 else m.refcount j := by
      by_cases hji : j = i
      · subst hji
        rw [if_pos ⟨rfl, Bool.eq_true_of_not_eq_false hset⟩]
        rcases Nat.eq_zero_or_pos (m.refcount j) with hz | hpos
        · rw [Pmm.dropRef, if_neg (by omega)]
          omega
        · exact refcount_dropRef hpos
      · rw [refcount_dropRef_ne hji, if_neg fun h => hji h.1]
    split
    · exact hdrop.trans hcount
    · exact hcount

theorem pages_pmmFreePage (m : Pmm) (page : Nat) : (m.pmmFreePage page).pages = m.pages := by
  have hdrop := pages_dropRef m (page / pageSize)
  unfold Pmm.pmmFreePage
  dsimp only
  split
  · rfl
  · split
    · exact (release_pages _ _).2.trans hdrop
    · exact hdrop

theorem Tracks.of_follows {m' : Pmm} {n : Nat} (h : Tracks m L) (hf : Follows m' (L.put i n))
    (hpages : m'.pages = m.pages) (hn : n < 65536) : Tracks m' (L.put i n) := by
  refine hf.tracks ?_
  intro j hj hr
  rw [hpages] at hj
  by_cases hji : j = i
  · rw [hji, L.put_refs_same]
    exact hn
  · rw [L.put_refs_ne n hji]
    exact h.refs_lt hj hr

/-- Every call a caller may make keeps the invariant. -/
theorem Tracks.advance {s : Pmm × Ledger} {c : Call} (h : Tracks s.1 s.2)
    (hc : s.2.Permits s.1.pages c) : Tracks (advance s c).1 (advance s c).2 := by
  cases c with
  | alloc =>
    rcases h.follows.allocPage_eq with ⟨i, hp, heq, hf, hmin⟩ | ⟨heq, -⟩
    · have hne : i * pageSize ≠ 0 :=
        Nat.ne_of_gt (Nat.mul_pos (h.follows.pos_of_free hf) (by decide))
      simp only [Pmm.advance, call, heq, Ledger.after, Pmm.take, if_neg hne, mul_pageSize_div,
        hf.2]
      exact h.of_follows (h.follows.take hp hf hmin) rfl (by decide)
    · simp only [Pmm.advance, call, heq, Ledger.after, if_pos]
      exact h
  | refInc page =>
    obtain ⟨hp, hr, hpos, hlt⟩ := hc
    exact h.of_follows (h.follows.pmmPageRefInc hp hr hpos) rfl (by omega)
  | free page =>
    have hlt := h.refs_lt hc.1 hc.2
    exact h.of_follows (h.follows.pmmFreePage hc.1 hc.2 hlt) (pages_pmmFreePage _ _) (by omega)

theorem Tracks.run {s : Pmm × Ledger} {cs : List Call} (h : Tracks s.1 s.2)
    (hc : Permitted s cs) : Tracks (run s cs).1 (run s cs).2 := by
  induction cs generalizing s with
  | nil => exact h
  | cons c cs ih => exact ih (h.advance hc.1) hc.2

theorem Follows.lowestFree (h : Follows m L) : L.LowestFree m.pages m.pmmAllocPage.2 := by
  rcases h.allocPage_eq with ⟨i, hp, heq, hf, hmin⟩ | ⟨heq, hnone⟩
  · have hne : i * pageSize ≠ 0 :=
      Nat.ne_of_gt (Nat.mul_pos (h.pos_of_free hf) (by decide))
    rw [heq]
    constructor
    · constructor
      · intro hz
        exact absurd hz hne
      · intro hnone
        exact absurd hf (hnone i hp)
    · intro _
      exact ⟨i, hp, rfl, hf, hmin⟩
  · rw [heq]
    exact ⟨⟨fun _ => hnone, fun _ => rfl⟩, fun hne => absurd rfl hne⟩

end Pmm

open Pmm

/-- From a state whose bitmap covers all pages, with the hint at `0` and page `0` reserved, after
every sequence of permitted calls: `pmm_alloc_page` answers with the lowest free page, and with
`NULL` exactly when there is none; the bit of a page is clear exactly when the page is not reserved
and its last reference has been dropped; and freeing a free page changes nothing. -/
theorem pmm_first_fit {m : Pmm} {L : Ledger} {cs : List Call} (hc : m.Covers)
    (hi : m.bitmapIndex = 0) (ho : Opens m L) (h0 : L.reserved 0 = true)
    (hcs : Permitted (m, L) cs) :
    (run (m, L) cs).2.LowestFree (run (m, L) cs).1.pages (run (m, L) cs).1.pmmAllocPage.2 ∧
      (∀ i < (run (m, L) cs).1.pages,
        (run (m, L) cs).1.bitmapTest i = false ↔ (run (m, L) cs).2.Free i) ∧
      ∀ page, page / pageSize < (run (m, L) cs).1.pages →
        (run (m, L) cs).2.Free (page / pageSize) →
          (run (m, L) cs).1.pmmFreePage page = (run (m, L) cs).1 := by
  have h : Tracks (run (m, L) cs).1 (run (m, L) cs).2 :=
    Tracks.run (s := (m, L)) (ho.tracks hc hi h0) hcs
  exact ⟨h.follows.lowestFree, h.bit, fun page hp hf => h.follows.pmmFreePage_free hp hf⟩

/-- Three pages, page `0` reserved.  The bitmap is the byte at `0` and the counts follow it. -/
def threePages : Pmm where
  mem := fun a => if a = 0 then 1#8 else 0#8
  bitmap := 0
  bitmapSize := 1
  highestAddress := 3 * pageSize
  bitmapIndex := 0

/-- The ledger of `threePages`. -/
def threePagesLedger : Ledger where
  reserved := fun i => i == 0
  refs := fun _ => 0

/-- Both free pages are taken, the first one is shared, and it is freed once. -/
def sharedOnce : List Call := [.alloc, .alloc, .refInc 4096, .free 4096]

theorem threePages_opens : Opens threePages threePagesLedger := by
  have hpages : threePages.pages = 3 := by decide
  constructor
  · rw [hpages]
    decide
  · rw [hpages]
    decide
  · rw [hpages]
    decide

theorem pmm_first_fit_sharedOnce :
    (run (threePages, threePagesLedger) sharedOnce).2.LowestFree 3
      (run (threePages, threePagesLedger) sharedOnce).1.pmmAllocPage.2 :=
  (pmm_first_fit (by decide) rfl threePages_opens rfl (by decide)).1

def pageZeroFree : Pmm where
  mem := fun _ => 0#8
  bitmap := 0
  bitmapSize := 1
  highestAddress := pageSize
  bitmapIndex := 0

/-- With page `0` free `pmm_alloc_page` answers `NULL` although a page is free. -/
theorem allocPage_zero_null :
    pageZeroFree.Covers ∧ pageZeroFree.bitmapIndex = 0 ∧
      Opens pageZeroFree ⟨fun _ => false, fun _ => 0⟩ ∧
      ¬Ledger.LowestFree ⟨fun _ => false, fun _ => 0⟩ pageZeroFree.pages
        pageZeroFree.pmmAllocPage.2 := by
  have hpages : pageZeroFree.pages = 1 := by decide
  refine ⟨by decide, rfl, ⟨?_, ?_, ?_⟩, ?_⟩
  · rw [hpages]
    decide
  · rw [hpages]
    decide
  · rw [hpages]
    decide
  · intro h
    have hnull : pageZeroFree.pmmAllocPage.2 = 0 := by decide
    exact h.1.mp hnull 0 (by decide) ⟨rfl, rfl⟩

end Aeryk.Mem
