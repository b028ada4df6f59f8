import Aeryk.Lib.Refs

/-!
# Resources with shared counters

Each owner holds one resource.  An owner without a counter is alone with its resource.  Owners of
the same resource hold the same counter, and its value is their number.  The lemmas say what has to
be done to the counters when owners come, go and change their resource.
-/

namespace Aeryk.Lib

open Finset Function

variable {σ ρ γ : Type*} [DecidableEq γ]

/-- The owners among `D` agree with their counters. -/
structure Shares (D : Finset σ) (res : σ → ρ) (ctr : σ → Option γ) (val : γ → Nat) : Prop where
  counted : ∀ s ∈ D, ∀ t ∈ D, s ≠ t → res s = res t → ctr s ≠ none ∧ ctr s = ctr t
  same : ∀ s ∈ D, ∀ t ∈ D, ∀ c, ctr s = some c → ctr t = some c → res s = res t
  count : ∀ s ∈ D, ∀ c, ctr s = some c → val c = refs ctr D c

section

variable {D : Finset σ} {res res' : σ → ρ} {ctr ctr' : σ → Option γ} {val val' : γ → Nat}
  {s t : σ} {c : γ} {r : ρ}

/-- Only the owners and the counters they hold matter. -/
theorem Shares.congr (h : Shares D res ctr val) (hr : ∀ s ∈ D, res' s = res s)
    (hc : ∀ s ∈ D, ctr' s = ctr s) (hv : ∀ s ∈ D, ∀ c, ctr s = some c → val' c = val c) :
    Shares D res' ctr' val' where
  counted s hs t ht hne e := by
    rw [hr s hs, hr t ht] at e
    rw [hc s hs, hc t ht]
    exact h.counted s hs t ht hne e
  same s hs t ht c es et := by
    rw [hc s hs] at es
    rw [hc t ht] at et
    rw [hr s hs, hr t ht]
    exact h.same s hs t ht c es et
  count s hs c e := by
    rw [hc s hs] at e
    rw [hv s hs c e, h.count s hs c e]
    refine refs_congr fun t => and_congr_right fun ht => ?_
    rw [hc t ht]

/-- An owner is alone with its resource if it has no counter, or one that stands at
one. -/
theorem Shares.alone (h : Shares D res ctr val) (hs : s ∈ D) (hc : ∀ c, ctr s = some c → val c = 1)
    (ht : t ∈ D) (hne : t ≠ s) : res t ≠ res s := by
  intro e
  obtain ⟨hcs, he⟩ := h.counted s hs t ht hne.symm e.symm
  obtain ⟨c, hcs⟩ := Option.ne_none_iff_exists'.mp hcs
  have hcard : refs ctr D c = 1 := (h.count s hs c hcs).symm.trans (hc c hcs)
  unfold refs at hcard
  obtain ⟨x, hx⟩ := card_eq_one.mp hcard
  have hsx : s ∈ ({x} : Finset σ) := hx ▸ mem_filter.mpr ⟨hs, hcs⟩
  have htx : t ∈ ({x} : Finset σ) := hx ▸ mem_filter.mpr ⟨ht, he ▸ hcs⟩
  exact hne ((mem_singleton.mp htx).trans (mem_singleton.mp hsx).symm)

variable [DecidableEq σ]

/-- An owner takes a resource that nobody uses. -/
theorem Shares.move (h : Shares D res ctr val) (hs : s ∈ D)
    (hc : ∀ c, ctr s = some c → val c = 1) (hr : ∀ t ∈ D, res t ≠ r) :
    Shares D (update res s r) ctr val where
  counted x hx y hy hne e := by
    have hold := h.counted x hx y hy hne
    simp only [update_apply] at e
    grind
  same x hx y hy c ex ey := by
    -- nobody shares the counter of an owner that is alone
    have hout : ∀ z ∈ D, z ≠ s → res z ≠ res s := fun z hz hzs => h.alone hs hc hz hzs
    have hold := h.same
    simp only [update_apply]
    grind
  count := h.count

/-- An owner that is alone starts to count with a counter that nobody uses. -/
theorem Shares.start (h : Shares D res ctr val) (hs : s ∈ D) (hn : ctr s = none)
    (hc : ∀ t ∈ D, ctr t ≠ some c) :
    Shares D res (update ctr s (some c)) (update val c 1) := by
  have halone : ∀ t ∈ D, t ≠ s → res t ≠ res s := fun t ht hne =>
    h.alone hs (fun c e => by rw [hn] at e; cases e) ht hne
  obtain ⟨hcounted, hsame, hcount⟩ := h
  refine ⟨fun x hx y hy hne e => ?_, fun x hx y hy d ex ey => ?_, fun x hx d e => ?_⟩
  · have hxs : x ≠ s := fun hxs => halone y hy (hxs ▸ hne.symm) (hxs ▸ e.symm)
    have hys : y ≠ s := fun hys => halone x hx hxs (hys ▸ e)
    rw [update_of_ne hxs, update_of_ne hys]
    exact hcounted x hx y hy hne e
  · simp only [update_apply] at ex ey
    grind
  · by_cases hxs : x = s
    · subst hxs
      obtain rfl : c = d := by simpa using e
      rw [update_self]
      unfold refs
      refine (card_eq_one.mpr ⟨x, ?_⟩).symm
      ext y
      simp only [mem_filter, mem_singleton, update_apply]
      grind
    · rw [update_of_ne hxs] at e
      have hdc : d ≠ c := fun hd => hc x hx (hd ▸ e)
      rw [update_of_ne hdc, hcount x hx d e]
      refine refs_congr fun y => and_congr_right fun hy => ?_
      simp only [update_apply]
      grind

/-- An owner of a resource that nobody uses joins. -/
theorem Shares.insert_alone (h : Shares D res ctr val) (hn : ctr s = none)
    (hr : ∀ t ∈ D, res t ≠ res s) : Shares (insert s D) res ctr val := by
  obtain ⟨hcounted, hsame, hcount⟩ := h
  refine ⟨by grind, by grind, fun x hx c e => ?_⟩
  rw [refs_insert_ne (by grind)]
  exact hcount x (by grind) c e

/-- A second owner joins the resource of an owner that counts. -/
theorem Shares.insert_shared (h : Shares D res ctr val) (hs : s ∉ D) (ht : t ∈ D)
    (hr : res s = res t) (hcs : ctr s = some c) (hct : ctr t = some c) :
    Shares (insert s D) res ctr (update val c (val c + 1)) := by
  obtain ⟨hcounted, hsame, hcount⟩ := h
  -- what shares the resource of `s` shares that of `t`
  refine ⟨by grind, by grind, fun x hx d e => ?_⟩
  by_cases hd : d = c
  · subst hd
    rw [update_self, refs_insert_same hs hcs, hcount t ht d hct]
  · rw [update_of_ne hd, refs_insert_ne (by grind)]
    exact hcount x (by grind) d e

/-- An owner leaves and its counter, if it has one, goes down. -/
theorem Shares.erase (h : Shares D res ctr val) (hs : s ∈ D)
    (hsame : ∀ d, ctr s ≠ some d → val' d = val d)
    (hdown : ∀ c, ctr s = some c → val' c = val c - 1) : Shares (D.erase s) res ctr val' where
  counted x hx y hy :=
    h.counted x (mem_of_mem_erase hx) y (mem_of_mem_erase hy)
  same x hx y hy := h.same x (mem_of_mem_erase hx) y (mem_of_mem_erase hy)
  count x hx d e := by
    have hx' := mem_of_mem_erase hx
    by_cases hd : ctr s = some d
    · rw [hdown d hd, h.count x hx' d e, ← refs_erase_same hs hd, Nat.add_sub_cancel]
    · rw [hsame d hd, h.count x hx' d e, refs_erase_ne hd]

end

end Aeryk.Lib
