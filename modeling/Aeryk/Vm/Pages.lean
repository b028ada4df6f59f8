import Aeryk.Vm.Failing

/-!
# Lists of new pages

`elf_load` and the code that makes the user stack map one page after the other, each with its own
address, flags and contents.  Of a page that is mapped twice the second stays, and the frame of the
first is lost.  After a prefix of the list the address space is as `Loaded` says, and the whole
list ends like the loops over a range do (`LoadEnd`).
-/

namespace Aeryk.Vm

open List Finset Lib Mem Mem.Pmm Memory

structure NewPage where
  va : Nat
  flags : Word
  ws : Nat → Word

def NewPage.page (p : NewPage) : Nat := pageOf p.va

/-- A page of the user half, with the flags of a page of the allocator. -/
structure NewPage.Ok (p : NewPage) : Prop where
  user : p.page < userPages
  flags : PageFlags p.flags

/-- Maps the pages one after the other.  The answer is `false` if there is no frame for one. -/
def Memory.mapAll (r : Nat) : List NewPage → Memory → Memory × Bool
  | [], m => (m, true)
  | p :: ps, m =>
    if (m.mapFilledPage r p.va p.flags p.ws).2 then
      mapAll r ps (m.mapFilledPage r p.va p.flags p.ws).1
    else ((m.mapFilledPage r p.va p.flags p.ws).1, false)

def pagesIn (ps : List NewPage) : List Nat := ps.map NewPage.page

/-- The page of the list that stays at `v`: the last one. -/
def lastAt (ps : List NewPage) (v : Nat) : Option NewPage :=
  ps.reverse.find? fun p => p.page == v

/-- The frames that the list needs: one for each page, and the missing tables. -/
def framesForList (m : Memory) (r : Nat) (ps : List NewPage) : Nat :=
  ps.length + ((pagesIn ps).toFinset.biUnion wayTo \ tables m r).card

section

variable {m m' m₁ : Memory} {res : Nat → Bool} {R : Finset Nat} {K K' K₁ : Nat → Nat}
  {r v f : Nat} {p : NewPage} {ps done rest : List NewPage}

theorem pagesIn_append (ps qs : List NewPage) : pagesIn (ps ++ qs) = pagesIn ps ++ pagesIn qs :=
  map_append

theorem pagesIn_cons (p : NewPage) (ps : List NewPage) :
    pagesIn (p :: ps) = p.page :: pagesIn ps :=
  map_cons

theorem pagesIn_snoc (ps : List NewPage) (p : NewPage) :
    pagesIn (ps ++ [p]) = pagesIn ps ++ [p.page] := by
  rw [pagesIn_append, pagesIn_cons]
  rfl

theorem lastAt_snoc (ps : List NewPage) (p : NewPage) (v : Nat) :
    lastAt (ps ++ [p]) v = if p.page = v then some p else lastAt ps v := by
  unfold lastAt
  rw [reverse_append, reverse_singleton, singleton_append]
  by_cases h : p.page = v
  · rw [if_pos h, find?_cons_of_pos (by simpa using h)]
  · rw [if_neg h, find?_cons_of_neg (by simpa using h)]

theorem lastAt_mem {q : NewPage} (h : lastAt ps v = some q) : q ∈ ps ∧ q.page = v := by
  unfold lastAt at h
  exact ⟨mem_reverse.mp (mem_of_find?_eq_some h), by simpa using find?_some h⟩

theorem lastAt_isSome : (lastAt ps v).isSome ↔ v ∈ pagesIn ps := by
  unfold lastAt pagesIn
  rw [find?_isSome, List.mem_map]
  simp

structure Loaded (res : Nat → Bool) (R : Finset Nat) (K : Nat → Nat) (m : Memory) (r : Nat)
    (ps : List NewPage) (m' : Memory) (K' : Nat → Nat) : Prop where
  accounted : Accounted m' res R K'
  grown : Grown res R m K m' K'
  /-- Where the list has a page, the last one stays, in a frame that was free. -/
  filled : ∀ v < userPages, ∀ p, lastAt ps v = some p →
    ∃ f ∈ freeFrames m res R K, m'.leaf r v = entry (f * pageSize) p.flags ∧
      Kept m' res R K' f ∧ m'.words f = p.ws
  tables : Vm.tables m' r = Vm.tables m r ∪ (pagesIn ps).toFinset.biUnion wayTo
  room : (freeFrames m' res R K').card + (Vm.tables m' r).card + ps.length =
    (freeFrames m res R K).card + (Vm.tables m r).card

theorem Loaded.start (h : Accounted m res R K) : Loaded res R K m r [] m K := by
  refine ⟨h, .refl, ?_, ?_, ?_⟩
  · intro v _ p hlast
    exact absurd (lastAt_mem hlast).1 not_mem_nil
  · rw [pagesIn, map_nil, toFinset_nil, biUnion_empty, union_empty]
  · rw [length_nil, Nat.add_zero]

/-- One more page. -/
theorem Loaded.next (h : Loaded res R K m r ps m₁ K₁) (hr : r ∈ R)
    (ht : Placed res R m₁ K₁ m' (K₁ + one (owned (m₁.leaf r p.page))) r p.page f p.ws)
    (hway : wayTo p.page ⊆ Vm.tables m' r)
    (hleaf : ∀ r' ∈ R, ∀ v < userPages, m'.leaf r' v =
      if r' = r ∧ v = p.page then entry (f * pageSize) p.flags else m₁.leaf r' v) :
    Loaded res R K m r (ps ++ [p]) m' (K₁ + one (owned (m₁.leaf r p.page))) := by
  have hpages := pagesIn_snoc ps p
  have htables : Vm.tables m' r = Vm.tables m₁ r ∪ wayTo p.page := by
    refine Finset.Subset.antisymm (fun x hx => mem_union.mpr (ht.within x hx)) ?_
    exact union_subset (ht.grown.tables hr) hway
  refine ⟨ht.accounted, h.grown.trans ht.grown, ?_, ?_, ?_⟩
  · intro v hv q hq
    rw [lastAt_snoc] at hq
    by_cases hpv : p.page = v
    · rw [if_pos hpv] at hq
      obtain rfl := Option.some.inj hq
      refine ⟨f, h.grown.free h.accounted ht.free, ?_, ht.kept, ht.contents⟩
      rw [hleaf r hr v hv, if_pos ⟨rfl, hpv.symm⟩]
    · rw [if_neg hpv] at hq
      obtain ⟨g, hg, hgleaf, hgkept, hgws⟩ := h.filled v hv q hq
      obtain ⟨hwords, hgkept'⟩ := ht.grown.page g hgkept
      refine ⟨g, hg, ?_, hgkept', hwords.trans hgws⟩
      rw [hleaf r hr v hv, if_neg fun hc => hpv hc.2.symm]
      exact hgleaf
  · rw [htables, h.tables, hpages, toFinset_append, union_biUnion,
      union_assoc, toFinset_cons, toFinset_nil, insert_empty_eq,
      singleton_biUnion]
  · have h₁ := h.room
    have h₂ := ht.room
    rw [length_append, length_singleton]
    omega

/-! ## The whole list -/

inductive LoadEnd (res : Nat → Bool) (R : Finset Nat) (K : Nat → Nat) (m : Memory) (r : Nat)
    (ps : List NewPage) : Memory × Bool → Prop
  /-- All pages are there. -/
  | all {m' : Memory} {K' : Nat → Nat} : Loaded res R K m r ps m' K' →
    LoadEnd res R K m r ps (m', true)
  /-- There is no frame for a page. -/
  | stopped {m' : Memory} {K' : Nat → Nat} {done rest : List NewPage} {p : NewPage} :
    ps = done ++ p :: rest → Loaded res R K m r done m' K' → freeFrames m' res R K' = ∅ →
    LoadEnd res R K m r ps ({ m' with nulls := m'.nulls + 1 }, false)
  /-- There is no frame for the tables of a page, and it was the last one. -/
  | lostLast {m₁ m' : Memory} {K₁ : Nat → Nat} {done : List NewPage} {p : NewPage} {f : Nat} :
    ps = done ++ [p] → Loaded res R K m r done m₁ K₁ →
    Placed res R m₁ K₁ m' (K₁ + Pi.single f 1) r p.page f p.ws →
    ¬wayTo p.page ⊆ tables m' r →
    freeFrames m' res R (K₁ + Pi.single f 1) = ∅ → LoadEnd res R K m r ps (m', true)
  /-- There is no frame for the tables of a page, nor for the next page. -/
  | lostStopped {m₁ m' : Memory} {K₁ : Nat → Nat} {done rest : List NewPage} {p q : NewPage}
    {f : Nat} : ps = done ++ p :: q :: rest → Loaded res R K m r done m₁ K₁ →
    Placed res R m₁ K₁ m' (K₁ + Pi.single f 1) r p.page f p.ws →
    ¬wayTo p.page ⊆ tables m' r →
    freeFrames m' res R (K₁ + Pi.single f 1) = ∅ →
    LoadEnd res R K m r ps ({ m' with nulls := m'.nulls + 1 }, false)

/-- The rest of a list, after a part of it. -/
theorem Loaded.mapAll (h : Loaded res R K m r done m₁ K₁) (hr : r ∈ R)
    (hok : ∀ q ∈ done ++ rest, q.Ok) :
    LoadEnd res R K m r (done ++ rest) (mapAll r rest m₁) := by
  induction rest generalizing done m₁ K₁ with
  | nil =>
    rw [append_nil]
    exact .all h
  | cons p rest ih =>
    have hp : p.Ok := hok p (by simp)
    rw [Memory.mapAll]
    rcases h.accounted.mapFilledPage hr hp.user hp.flags p.ws with
      ⟨m', f, heq, ht, hway, hleaf⟩ | ⟨m', f, heq, ht, hway, -, hfull⟩ |
      ⟨heq, hfull⟩
    · rw [heq, if_pos rfl, append_cons]
      rw [append_cons] at hok
      exact ih (h.next hr ht hway hleaf) hok
    · rw [heq, if_pos rfl]
      cases rest with
      | nil => exact .lostLast rfl h ht hway hfull
      | cons q rest =>
        rw [Memory.mapAll, ht.accounted.mapFilledPage_none hfull, if_neg Bool.false_ne_true]
        exact .lostStopped rfl h ht hway hfull
    · rw [heq, if_neg Bool.false_ne_true]
      exact .stopped rfl h hfull

theorem Accounted.mapAll (h : Accounted m res R K) (hr : r ∈ R) (hok : ∀ p ∈ ps, p.Ok) :
    LoadEnd res R K m r ps (mapAll r ps m) :=
  (Loaded.start h).mapAll hr hok

/-! ## Frames enough -/

theorem Loaded.room_eq (h : Loaded res R K m r ps m' K') :
    (freeFrames m' res R K').card + framesForList m r ps = (freeFrames m res R K).card := by
  have hroom := h.room
  unfold framesForList
  rw [h.tables, card_union_sdiff] at hroom
  omega

/-- A page needs at most its frame and three tables. -/
theorem framesForList_le (m : Memory) (r : Nat) (ps : List NewPage) :
    framesForList m r ps ≤ 4 * ps.length := by
  unfold framesForList
  have hsub := card_le_card
    (sdiff_subset (s := (pagesIn ps).toFinset.biUnion wayTo) (t := tables m r))
  have hways : ((pagesIn ps).toFinset.biUnion wayTo).card ≤ (pagesIn ps).toFinset.card * 3 :=
    card_biUnion_le_card_mul _ _ _ fun v _ => (card_wayTo v).le
  have hpages := (pagesIn ps).toFinset_card_le
  rw [pagesIn, length_map] at hpages
  rw [pagesIn] at hways hsub ⊢
  omega

/-- A longer list needs more frames. -/
theorem framesForList_append (m : Memory) (r : Nat) (ps qs : List NewPage) :
    framesForList m r ps + qs.length ≤ framesForList m r (ps ++ qs) := by
  have hsub : (pagesIn ps).toFinset.biUnion wayTo \ tables m r ⊆
      (pagesIn (ps ++ qs)).toFinset.biUnion wayTo \ tables m r := by
    refine sdiff_subset_sdiff ?_ (Finset.Subset.refl _)
    refine biUnion_subset_biUnion_of_subset_left _ fun v hv => ?_
    unfold pagesIn at hv ⊢
    rw [map_append, toFinset_append]
    exact mem_union_left _ hv
  have hcard := card_le_card hsub
  unfold framesForList
  rw [length_append]
  omega

/-- The page whose tables were missing is one for which there were too few frames. -/
theorem Loaded.lost_room (h : Loaded res R K m r ps m₁ K₁)
    (ht : Placed res R m₁ K₁ m' K' r p.page f p.ws) (hfull : freeFrames m' res R K' = ∅)
    (hway : ¬wayTo p.page ⊆ Vm.tables m' r) (hr : r ∈ R) :
    framesForList m r ps + 1 ≤ (freeFrames m res R K).card ∧
      (freeFrames m res R K).card < framesForList m r (ps ++ [p]) := by
  have hroom := h.room_eq
  have hmore := ht.room
  rw [hfull, card_empty] at hmore
  have hgrow := card_le_card (ht.grown.tables hr)
  have hall : (pagesIn (ps ++ [p])).toFinset.biUnion wayTo =
      (pagesIn ps).toFinset.biUnion wayTo ∪ wayTo p.page := by
    unfold pagesIn
    rw [map_append, toFinset_append, union_biUnion, List.map_singleton,
      toFinset_cons, toFinset_nil, insert_empty_eq, singleton_biUnion]
  have hsub : Vm.tables m' r ⊂ Vm.tables m r ∪ (pagesIn (ps ++ [p])).toFinset.biUnion wayTo := by
    refine ⟨fun x hx => ?_, fun hsup => hway ?_⟩
    · rw [hall, ← union_assoc, ← h.tables]
      exact mem_union.mpr (ht.within x hx)
    · refine Finset.Subset.trans ?_ hsup
      rw [hall]
      exact subset_union_right.trans subset_union_right
  have hlt := card_lt_card hsub
  have hold : (Vm.tables m₁ r).card = (Vm.tables m r).card +
      ((pagesIn ps).toFinset.biUnion wayTo \ Vm.tables m r).card := by
    rw [h.tables, card_union_sdiff]
  rw [card_union_sdiff] at hlt
  unfold framesForList at hroom ⊢
  rw [length_append, length_singleton]
  omega

/-- With frames enough all pages are there. -/
theorem Accounted.mapAll_enough (h : Accounted m res R K) (hr : r ∈ R) (hok : ∀ p ∈ ps, p.Ok)
    (henough : framesForList m r ps ≤ m.freeCount) :
    ∃ m' K', Memory.mapAll r ps m = (m', true) ∧ Loaded res R K m r ps m' K' := by
  rw [h.freeCount_eq] at henough
  generalize hend : Memory.mapAll r ps m = o
  have hload := h.mapAll hr hok
  rw [hend] at hload
  cases hload with
  | all hl => exact ⟨_, _, rfl, hl⟩
  | @stopped m' K' done rest p heq hl hfull =>
    have hroom := hl.room_eq
    have hmono := framesForList_append m r done (p :: rest)
    rw [hfull, card_empty] at hroom
    rw [heq] at henough
    rw [length_cons] at hmono
    omega
  | lostLast heq hl ht hway hfull =>
    have hlost := (hl.lost_room ht hfull hway hr).2
    rw [heq] at henough
    omega
  | @lostStopped m₁ m' K₁ done rest p q f heq hl ht hway hfull =>
    have hlost := (hl.lost_room ht hfull hway hr).2
    have hmono := framesForList_append m r (done ++ [p]) (q :: rest)
    rw [heq] at henough
    rw [append_assoc, singleton_append] at hmono
    omega

end

end Aeryk.Vm
