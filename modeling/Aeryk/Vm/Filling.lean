import Aeryk.Vm.Calls

/-!
# Loops over a range of pages

What the loops of the memory calls do to an address space, for ranges of the user half.  The loop
of `SYS_mmap` and `SYS_brk` fills its range page by page (`Filled`), and ends in one of three ways:
the range is full, there is no frame for the next page, or there is one and none for its tables.
In the last case the page is lost, and the loop does not notice.
-/

namespace Aeryk.Vm

open Finset Lib Mem Mem.Pmm Memory

section

variable {m m' m₁ : Memory} {res : Nat → Bool} {R : Finset Nat} {K : Nat → Nat}
  {r r' p i n v base : Nat} {flags : Word}

/-- The page of an address in a range of pages, whatever the sum is cut to. -/
theorem pageOf_range (base i : Nat) (h : base / pageSize + i < userPages) :
    pageOf ((base + i * pageSize) % 2 ^ 64) = base / pageSize + i := by
  have h' : base / pageSize + i < 256 * 512 ^ 3 := h
  unfold pageOf
  unfold pageSize at *
  omega

/-- The pages from `p` on, `i` of them, are new ones. -/
structure Filled (res : Nat → Bool) (R : Finset Nat) (K : Nat → Nat) (m m' : Memory)
    (r p i : Nat) (flags : Word) : Prop where
  accounted : Accounted m' res R (K + lostRefs m r (Finset.Ico p (p + i)))
  grown : Grown res R m K m' (K + lostRefs m r (Finset.Ico p (p + i)))
  leaf : ∀ r' ∈ R, ∀ v < userPages, ¬(r' = r ∧ p ≤ v ∧ v < p + i) → m'.leaf r' v = m.leaf r' v
  /-- Each new page has a frame that was free, cleared. -/
  filled : ∀ v < userPages, p ≤ v → v < p + i →
    ∃ f ∈ freeFrames m res R K, m'.leaf r v = entry (f * pageSize) flags ∧
      Kept m' res R (K + lostRefs m r (Finset.Ico p (p + i))) f ∧ ∀ j, m'.words f j = 0#64
  apart : ∀ u < userPages, ∀ v < userPages, p ≤ u → u < p + i → p ≤ v → v < p + i →
    frameOf (m'.leaf r u) = frameOf (m'.leaf r v) → u = v
  tables : Vm.tables m' r = Vm.tables m r ∪ (Finset.Ico p (p + i)).biUnion wayTo
  room : (freeFrames m' res R (K + lostRefs m r (Finset.Ico p (p + i)))).card +
      (Vm.tables m' r).card + i = (freeFrames m res R K).card + (Vm.tables m r).card
  /-- A frame that was free is held now. -/
  fresh : 0 < i → ∃ f ∈ freeFrames m res R K,
    Kept m' res R (K + lostRefs m r (Finset.Ico p (p + i))) f

theorem Filled.start (h : Accounted m res R K) : Filled res R K m m r p 0 flags := by
  have hK : K + lostRefs m r (Finset.Ico p (p + 0)) = K := by
    rw [Nat.add_zero, Finset.Ico_self, lostRefs_empty, add_zero]
  refine ⟨?_, ?_, fun _ _ _ _ _ => rfl, ?_, ?_, ?_, ?_, fun hlt => absurd hlt (Nat.lt_irrefl 0)⟩
  · rw [hK]
    exact h
  · rw [hK]
    exact Grown.refl
  · intro v _ hle hlt
    omega
  · intro u _ v _ hu hlt
    omega
  · rw [Nat.add_zero, Finset.Ico_self, biUnion_empty, union_empty]
  · rw [hK, Nat.add_zero]

theorem lostRefs_succ (m : Memory) (r p i : Nat) :
    lostRefs m r (Finset.Ico p (p + (i + 1))) =
      lostRefs m r (Finset.Ico p (p + i)) + one (owned (m.leaf r (p + i))) := by
  funext f
  exact sum_Ico_succ_top (Nat.le_add_right p i) _

/-- One more page. -/
theorem Filled.next (h : Filled res R K m m₁ r p i flags) (hm : Accounted m res R K)
    (hr : r ∈ R) (hflags : PageFlags flags) (hv : p + i < userPages) {f : Nat}
    (ht : Placed res R m₁ (K + lostRefs m r (Finset.Ico p (p + i))) m'
      (K + lostRefs m r (Finset.Ico p (p + i)) + one (owned (m₁.leaf r (p + i)))) r (p + i) f
      fun _ => 0#64)
    (hway : wayTo (p + i) ⊆ Vm.tables m' r)
    (hleaf : ∀ r' ∈ R, ∀ v < userPages, m'.leaf r' v =
      if r' = r ∧ v = p + i then entry (f * pageSize) flags else m₁.leaf r' v) :
    Filled res R K m m' r p (i + 1) flags := by
  have hold : m₁.leaf r (p + i) = m.leaf r (p + i) := h.leaf r hr _ hv (by omega)
  have hK : K + lostRefs m r (Finset.Ico p (p + (i + 1))) =
      K + lostRefs m r (Finset.Ico p (p + i)) + one (owned (m₁.leaf r (p + i))) := by
    rw [lostRefs_succ, hold, add_assoc]
  have htables : Vm.tables m' r = Vm.tables m₁ r ∪ wayTo (p + i) := by
    refine Finset.Subset.antisymm (fun x hx => mem_union.mpr (ht.within x hx)) ?_
    exact union_subset (ht.grown.tables hr) hway
  obtain ⟨hlt, hres, hunused⟩ := mem_freeFrames.mp ht.free
  have hsmall : f < 2 ^ 40 := Nat.lt_of_lt_of_le hlt h.accounted.small
  have hnew : m'.leaf r (p + i) = entry (f * pageSize) flags := by
    rw [hleaf r hr _ hv, if_pos ⟨rfl, rfl⟩]
  have hsame : ∀ v < userPages, v ≠ p + i → m'.leaf r v = m₁.leaf r v := by
    intro v hv' hne
    rw [hleaf r hr v hv', if_neg fun hc => hne hc.2]
  -- the frames of the pages before this one are in use, so this one has another
  have hother : ∀ v < userPages, p ≤ v → v < p + i →
      frameOf (m'.leaf r v) ≠ frameOf (m'.leaf r (p + i)) := by
    intro v hv' hle hbefore
    obtain ⟨g, hg, hgleaf, hgkept, -⟩ := h.filled v hv' hle hbefore
    have hgsmall := Nat.lt_of_lt_of_le (mem_freeFrames.mp hg).1 hm.small
    rw [hsame v hv' (by omega), hgleaf, hnew, frameOf_entry hgsmall hflags.addr,
      frameOf_entry hsmall hflags.addr]
    exact hgkept.ne_of_free hunused hlt hres
  refine ⟨?_, ?_, ?_, ?_, ?_, ?_, ?_, fun _ => ?_⟩
  · rw [hK]
    exact ht.accounted
  · rw [hK]
    exact h.grown.trans ht.grown
  · intro r' hr' v hv' hout
    rw [hleaf r' hr' v hv', if_neg fun hc => hout ⟨hc.1, by omega⟩]
    exact h.leaf r' hr' v hv' fun hc => hout ⟨hc.1, hc.2.1, by omega⟩
  · intro v hv' hle hbefore
    rw [hK]
    by_cases hlast : v = p + i
    · subst hlast
      exact ⟨f, h.grown.free h.accounted ht.free, hnew, ht.kept, congrFun ht.contents⟩
    · obtain ⟨g, hg, hgleaf, hgkept, hzero⟩ := h.filled v hv' hle (by omega)
      obtain ⟨hwords, hgkept'⟩ := ht.grown.page g hgkept
      refine ⟨g, hg, (hsame v hv' hlast).trans hgleaf, hgkept', fun j => ?_⟩
      rw [hwords, hzero]
  · intro u hu v hv' hpu hui hpv hvi heq
    by_cases hu' : u = p + i
    · by_cases hv'' : v = p + i
      · rw [hu', hv'']
      · subst hu'
        exact absurd heq.symm (hother v hv' hpv (by omega))
    · by_cases hv'' : v = p + i
      · subst hv''
        exact absurd heq (hother u hu hpu (by omega))
      · rw [hsame u hu hu', hsame v hv' hv''] at heq
        exact h.apart u hu v hv' hpu (by omega) hpv (by omega) heq
  · rw [htables, h.tables, union_assoc, ← Nat.add_assoc,
      Nat.Ico_succ_right_eq_insert_Ico (Nat.le_add_right p i), biUnion_insert,
      union_comm (wayTo (p + i))]
  · have hroom := h.room
    have hmore := ht.room
    rw [hK]
    omega
  · rw [hK]
    exact ⟨f, h.grown.free h.accounted ht.free, ht.kept⟩

inductive Ended (res : Nat → Bool) (R : Finset Nat) (K : Nat → Nat) (m : Memory) (r p n : Nat)
    (flags : Word) : Memory × Nat → Prop
  /-- All pages are there. -/
  | full {m' : Memory} : Filled res R K m m' r p n flags → Ended res R K m r p n flags (m', n)
  /-- There is no frame for a page. -/
  | stopped {m' : Memory} {i : Nat} : Filled res R K m m' r p i flags → i < n →
    freeFrames m' res R (K + lostRefs m r (Finset.Ico p (p + i))) = ∅ →
    Ended res R K m r p n flags ({ m' with nulls := m'.nulls + 1 }, i)
  /-- There is no frame for the tables of a page, and it was the last one. -/
  | lostLast {m₁ m' : Memory} {i f : Nat} : Filled res R K m m₁ r p i flags → i + 1 = n →
    Placed res R m₁ (K + lostRefs m r (Finset.Ico p (p + i))) m'
      (K + lostRefs m r (Finset.Ico p (p + i)) + Pi.single f 1) r (p + i) f (fun _ => 0#64) →
    freeFrames m' res R (K + lostRefs m r (Finset.Ico p (p + i)) + Pi.single f 1) = ∅ →
    ¬wayTo (p + i) ⊆ tables m' r → Ended res R K m r p n flags (m', n)
  /-- There is no frame for the tables of a page, nor for the next page. -/
  | lostStopped {m₁ m' : Memory} {i f : Nat} : Filled res R K m m₁ r p i flags → i + 1 < n →
    Placed res R m₁ (K + lostRefs m r (Finset.Ico p (p + i))) m'
      (K + lostRefs m r (Finset.Ico p (p + i)) + Pi.single f 1) r (p + i) f (fun _ => 0#64) →
    freeFrames m' res R (K + lostRefs m r (Finset.Ico p (p + i)) + Pi.single f 1) = ∅ →
    ¬wayTo (p + i) ⊆ tables m' r →
    Ended res R K m r p n flags ({ m' with nulls := m'.nulls + 1 }, i + 1)

/-- The loop over new pages, from any turn on. -/
theorem Filled.mapPages (h : Filled res R K m m₁ r (base / pageSize) i flags)
    (hm : Accounted m res R K) (hr : r ∈ R) (hflags : PageFlags flags)
    (hrange : ∀ j < i + n, j < (freeFrames m res R K).card → base / pageSize + j < userPages) :
    Ended res R K m r (base / pageSize) (i + n) flags (mapPages r base flags n i m₁) := by
  induction n generalizing i m₁ with
  | zero => exact .full h
  | succ n ih =>
    unfold Vm.mapPages
    rcases Nat.eq_zero_or_pos (freeFrames m₁ res R
        (K + lostRefs m r (Finset.Ico (base / pageSize) (base / pageSize + i)))).card with
      hz | hpos
    · have hfull := card_eq_zero.mp hz
      rw [mapNewPage_eq, h.accounted.mapFilledPage_none hfull]
      exact .stopped h (by omega) hfull
    · have htables := card_le_card (h.grown.tables hr)
      have hroom := h.room
      have hv := hrange i (by omega) (by omega)
      have hpage := pageOf_range base i hv
      have hva : pageOf ((base + i * pageSize) % 2 ^ 64) < userPages := hpage.symm ▸ hv
      have hmap := h.accounted.mapFilledPage hr hva hflags fun _ => 0#64
      rw [hpage] at hmap
      rw [mapNewPage_eq]
      rcases hmap with ⟨m', f, heq, ht, hway, hleaf⟩ | ⟨m', f, heq, ht, hway, -, hfull⟩ | ⟨-, hfull⟩
      · rw [heq]
        have hnext := ih (h.next hm hr hflags hv ht hway hleaf) (by
          intro j hj
          exact hrange j (by omega))
        have hn : i + 1 + n = i + (n + 1) := by omega
        rw [hn] at hnext
        exact hnext
      · rw [heq]
        dsimp only
        cases n with
        | zero => exact .lostLast h rfl ht hfull hway
        | succ n =>
          unfold Vm.mapPages
          rw [mapNewPage_eq, ht.accounted.mapFilledPage_none hfull]
          exact .lostStopped h (by omega) ht hfull hway
      · rw [hfull, card_empty] at hpos
        omega

/-- The loop of `SYS_mmap` and `SYS_brk`. -/
theorem Accounted.mapPages (h : Accounted m res R K) (hr : r ∈ R) (hflags : PageFlags flags)
    (hrange : ∀ j < n, j < (freeFrames m res R K).card → base / pageSize + j < userPages) :
    Ended res R K m r (base / pageSize) n flags (mapPages r base flags n 0 m) := by
  have hstart : Filled res R K m m r (base / pageSize) 0 flags := Filled.start h
  have hended := hstart.mapPages h hr hflags (n := n) (by rw [Nat.zero_add]; exact hrange)
  rw [Nat.zero_add] at hended
  exact hended

end

end Aeryk.Vm
