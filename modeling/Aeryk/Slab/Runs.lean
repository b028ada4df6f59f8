import Aeryk.Slab.Format

/-!
# Runs of the slab allocator

Any sequence of `kmalloc` and `kfree` calls after `init_slab`, under any answers of the physical
memory manager.  Between the calls the owners of live chunks write what they like into them, and
whatever lies outside the slab pages may change too.

`Inv` holds at all times, also in the middle of `kmalloc`.  At the end of each call every slab page
has a live chunk (`SlabOk`), so a page goes back to the memory manager with its last chunk.
-/

namespace Aeryk.Slab

open List Finset Lib

/-- The allocator and the chunks its callers hold. -/
structure Sys where
  st : State
  live : Finset Nat

/-- `answer` may be what `pmm_alloc_page` returns: null, or a frame the allocator does
not hold. -/
def MayAnswer (st : State) (answer : Nat) : Prop :=
  answer = 0 ∨ pageSize ∣ answer ∧ answer ∉ st.held

/-- The size of the chunk at `c`, as its slab header gives it. -/
def chunkSize (st : State) (c : Nat) : Nat :=
  (st.caches (Fin.ofNat numCaches (read st.mem (pageBase c) .cache))).objectSize

/-- A word the allocator relies on: it lies in a slab page and in no live chunk. -/
def Owned (hhdm : Nat) (s : Sys) (a : Nat) : Prop :=
  (∃ phys ∈ s.st.held, phys + hhdm ≤ a ∧ a < phys + hhdm + pageSize) ∧
    ∀ c ∈ s.live, ¬(c ≤ a ∧ a < c + chunkSize s.st c)

def Sys.kmalloc (hhdm : Nat) (s : Sys) (size answer : Nat) : Sys :=
  let r := Slab.kmalloc hhdm s.st size answer
  ⟨r.1, if r.2 = 0 then s.live else insert r.2 s.live⟩

def Sys.kfree (hhdm : Nat) (s : Sys) (p : Nat) : Sys :=
  ⟨Slab.kfree hhdm s.st p, s.live.erase p⟩

inductive Step (hhdm : Nat) : Sys → Sys → Prop where
  | kmalloc {s} (size : Nat) {answer : Nat} (h : MayAnswer s.st answer) :
    Step hhdm s (s.kmalloc hhdm size answer)
  | kfree {s} {p : Nat} (h : p = 0 ∨ p ∈ s.live) : Step hhdm s (s.kfree hhdm p)
  | store {s} (m : Words) (h : ∀ a, Owned hhdm s a → m a = s.st.mem a) :
    Step hhdm s { s with st := { s.st with mem := m } }

/-- The system when `init_slab` has run, over any memory. -/
def Sys.init (m : Words) : Sys where
  st := initSlab { mem := m, caches := fun _ => emptyCache, held := ∅, printed := [] }
  live := ∅

def Reachable (hhdm : Nat) (s : Sys) : Prop :=
  ∃ m, Relation.ReflTransGen (Step hhdm) (Sys.init m) s

/-! ## The invariant -/

/-- The allocator is in the state the view describes. -/
structure Inv (hhdm : Nat) (st : State) (live : Finset Nat) (V : View) : Prop where
  core : Core st V
  no_free : ∀ i, V.lists i .slabsFree = []
  full_iff : ∀ {i l pg}, pg ∈ V.lists i l → (l = .slabsFull ↔ V.free pg = [])
  held_iff : ∀ pg, (∃ i l, pg ∈ V.lists i l) ↔ ∃ phys ∈ st.held, pg = phys + hhdm
  live_iff : ∀ c, c ∈ live ↔
    ∃ i l pg, pg ∈ V.lists i l ∧ IsChunk i pg c ∧ c ∉ V.free pg

/-- The views differ in the page `t` at most. -/
structure Agree (V V' : View) (t : Nat) : Prop where
  lists : ∀ {b}, b ≠ t → ∀ j k, b ∈ V'.lists j k ↔ b ∈ V.lists j k
  free : ∀ {b}, b ≠ t → V'.free b = V.free b

theorem Agree.trans {V V' V'' : View} {t : Nat} (h : Agree V V' t) (h' : Agree V' V'' t) :
    Agree V V'' t where
  lists hb j k := (h'.lists hb j k).trans (h.lists hb j k)
  free hb := (h'.free hb).trans (h.free hb)

theorem agree_setFree (V : View) (t : Nat) (free : List Nat) : Agree V (V.setFree t free) t where
  lists _ _ _ := Iff.rfl
  free hb := V.setFree_ne free hb

theorem agree_setList (V : View) {i : CacheId} {l : SlabList} {L : List Nat} {t : Nat}
    (h : ∀ b, b ≠ t → (b ∈ L ↔ b ∈ V.lists i l)) : Agree V (V.setList i l L) t where
  lists {b} hb j k := by
    by_cases hjk : j = i ∧ k = l
    · obtain ⟨rfl, rfl⟩ := hjk
      rw [V.setList_same]
      exact h b hb
    · rw [V.setList_ne L hjk]
  free _ := rfl

section Inv

variable {hhdm : Nat} {st st' : State} {live live' : Finset Nat} {V V' : View} {i : CacheId}
  {l k : SlabList} {t c : Nat}

/-- The invariant after a change to the page `t` alone. -/
theorem Inv.of_agree (h : Inv hhdm st live V) (hc : Core st' V') (ha : Agree V V' t)
    (hpg : pageSize ∣ t) (hi : ∀ j k, t ∈ V.lists j k → j = i)
    (ht : ∀ j k, t ∈ V'.lists j k →
      j = i ∧ k ≠ .slabsFree ∧ (k = .slabsFull ↔ V'.free t = []))
    (hheld : ∀ pg, pg ≠ t →
      ((∃ phys ∈ st'.held, pg = phys + hhdm) ↔ ∃ phys ∈ st.held, pg = phys + hhdm))
    (hheld' : (∃ j k, t ∈ V'.lists j k) ↔ ∃ phys ∈ st'.held, t = phys + hhdm)
    (hlive : ∀ c, ¬IsChunk i t c → (c ∈ live' ↔ c ∈ live))
    (hlive' : ∀ c, IsChunk i t c → (c ∈ live' ↔ (∃ k, t ∈ V'.lists i k) ∧ c ∉ V'.free t)) :
    Inv hhdm st' live' V' := by
  refine ⟨hc, fun j => ?_, fun {j k b} hb => ?_, fun b => ?_, fun c => ?_⟩
  · refine eq_nil_iff_forall_not_mem.mpr fun b hb => ?_
    by_cases hbt : b = t
    · subst hbt
      exact (ht j _ hb).2.1 rfl
    · have := (ha.lists hbt j _).mp hb
      rw [h.no_free j] at this
      cases this
  · by_cases hbt : b = t
    · subst hbt
      exact (ht j k hb).2.2
    · rw [ha.free hbt]
      exact h.full_iff ((ha.lists hbt j k).mp hb)
  · by_cases hbt : b = t
    · subst hbt
      exact hheld'
    · rw [hheld b hbt, ← h.held_iff b]
      simp only [ha.lists hbt]
  · by_cases hct : IsChunk i t c
    · rw [hlive' c hct]
      constructor
      · rintro ⟨⟨k, hk⟩, hf⟩
        exact ⟨i, k, t, hk, hct, hf⟩
      · rintro ⟨j, k, b, hb, hcb, hf⟩
        have hbt : b = t := by
          rw [← hcb.pageBase_eq (hc.page hb).page, hct.pageBase_eq hpg]
        subst hbt
        obtain ⟨rfl, -⟩ := ht j k hb
        exact ⟨⟨k, hb⟩, hf⟩
    · rw [hlive c hct, h.live_iff c]
      constructor
      · rintro ⟨j, k, b, hb, hcb, hf⟩
        have hbt : b ≠ t := by
          rintro rfl
          exact hct (hi j k hb ▸ hcb)
        exact ⟨j, k, b, (ha.lists hbt j k).mpr hb, hcb, by rwa [ha.free hbt]⟩
      · rintro ⟨j, k, b, hb, hcb, hf⟩
        have hbt : b ≠ t := by
          rintro rfl
          exact hct ((ht j k hb).1 ▸ hcb)
        exact ⟨j, k, b, (ha.lists hbt j k).mp hb, hcb, by rwa [ha.free hbt] at hf⟩

/-- A slab that has been taken off its list is on no list. -/
theorem Core.not_mem_removed {l₁ l₂ : List Nat} (h : Core st V)
    (hs : V.lists i l = l₁ ++ t :: l₂) (j : CacheId) (k : SlabList) :
    t ∉ (V.setList i l (l₁ ++ l₂)).lists j k := by
  intro hm
  have ht : t ∈ V.lists i l := by simp [hs]
  by_cases hjk : j = i ∧ k = l
  · obtain ⟨rfl, rfl⟩ := hjk
    have hnd := h.nodup j k
    rw [hs, nodup_append] at hnd
    rw [V.setList_same] at hm
    rcases mem_append.mp hm with hm | hm
    · exact hnd.2.2 t hm t mem_cons_self rfl
    · exact (nodup_cons.mp hnd.2.1).1 hm
  · rw [V.setList_ne _ hjk] at hm
    exact hjk (h.unique hm ht)

/-- A slab moves from one list of its cache to another. -/
theorem Core.move (h : Core st V) (ht : t ∈ V.lists i l) (k : SlabList) :
    ∃ V', Core ((st.listRemove i l t).listAdd i k t) V' ∧ Agree V V' t ∧
      t ∈ V'.lists i k ∧ V'.free = V.free := by
  obtain ⟨l₁, l₂, hs⟩ := append_of_mem ht
  obtain ⟨h1, hf1⟩ := h.listRemove hs
  obtain ⟨h2, -⟩ := h1.listAdd (l := k) ((h.page ht).linkFrame hf1)
    (h.not_mem_removed hs)
  refine ⟨_, h2, ?_, by simp, rfl⟩
  refine (agree_setList V fun b hb => ?_).trans (agree_setList _ fun b hb => ?_)
  · rw [hs]; simp [hb]
  · simp [hb]

/-! ## `kmalloc` -/

@[simp] theorem listRemove_held (st : State) (i : CacheId) (l : SlabList) (s : Nat) :
    (st.listRemove i l s).held = st.held := rfl

@[simp] theorem listAdd_held (st : State) (i : CacheId) (l : SlabList) (s : Nat) :
    (st.listAdd i l s).held = st.held := rfl

/-- Free and live chunks make up the page. -/
theorem Inv.live_chunk_iff (h : Inv hhdm st live V) (ht : t ∈ V.lists i l) (hc : IsChunk i t c) :
    c ∈ live ↔ c ∉ V.free t := by
  rw [h.live_iff c]
  constructor
  · rintro ⟨j, k, b, hb, hcb, hf⟩
    have hbt : b = t := by
      rw [← hcb.pageBase_eq (h.core.page hb).page, hc.pageBase_eq (h.core.page ht).page]
    exact hbt ▸ hf
  · exact fun hf => ⟨i, _, t, ht, hc, hf⟩

/-- A chunk of a partial slab is taken, and the slab moves if it was the last one. -/
theorem Inv.takeChunk (h : Inv hhdm st live V) (ht : t ∈ V.lists i .slabsPartial) :
    ∃ V', Inv hhdm (takeChunk st i t).1 (insert (takeChunk st i t).2 live) V' ∧
      Agree V V' t ∧ (∃ l, t ∈ V'.lists i l) ∧ (V'.free t).length < chunksPer i ∧
      (takeChunk st i t).1.held = st.held ∧ IsChunk i t (takeChunk st i t).2 ∧
      (takeChunk st i t).2 ∉ live := by
  have hpg := h.core.page ht
  obtain ⟨c, cs, hfree⟩ : ∃ c cs, V.free t = c :: cs :=
    exists_cons_of_ne_nil fun e => by cases (h.full_iff ht).mpr e
  have hpop := h.core.pop ht hfree
  have hchunk : read st.mem t .freeList = c := by
    rw [hfree] at hpg
    exact hpg.freeList_eq
  have hpg' := hpop.page ht
  rw [View.setFree_same] at hpg'
  have hcount : read (popChunk st.mem t) t .freeChunks = cs.length := hpg'.count_eq
  have hnd : c ∉ cs := by
    have := hpg.nodup
    rw [hfree] at this
    exact (nodup_cons.mp this).1
  have hc : IsChunk i t c := hpg.chunk c (by simp [hfree])
  have hclive : c ∉ live := fun hm => (h.live_chunk_iff ht hc).mp hm (by simp [hfree])
  have hlen : cs.length < chunksPer i := by
    have := hpg.length_le
    rw [hfree] at this
    exact this
  have hret : (Slab.takeChunk st i t).2 = c := by
    rw [← hchunk]
    unfold Slab.takeChunk
    dsimp only
    split <;> rfl
  have hheldT : ∃ phys ∈ st.held, t = phys + hhdm := (h.held_iff t).mp ⟨i, _, ht⟩
  -- what the invariant asks for once the view is known
  have finish : ∀ {st' : State} {V' : View} {l : SlabList}, Core st' V' → Agree V V' t →
      t ∈ V'.lists i l → V'.free t = cs → l ≠ .slabsFree → (l = .slabsFull ↔ cs = []) →
      st'.held = st.held → Inv hhdm st' (insert c live) V' := by
    intro st' V' l hcore hag htl hfr hl hfull hheld
    have huniq : ∀ j k, t ∈ V'.lists j k → j = i ∧ k = l := fun j k hm => hcore.unique hm htl
    refine h.of_agree hcore hag hpg.page (fun j k hm => (h.core.unique hm ht).1) ?_
      (fun pg _ => by rw [hheld]) ?_ (fun d hd => ?_) fun d hd => ?_
    · intro j k hm
      obtain ⟨rfl, rfl⟩ := huniq j k hm
      exact ⟨rfl, hl, by rw [hfr]; exact hfull⟩
    · rw [hheld]
      exact iff_of_true ⟨i, l, htl⟩ hheldT
    · rw [mem_insert]
      exact or_iff_right fun e => hd (e ▸ hc)
    · rw [mem_insert, h.live_chunk_iff ht hd, hfree, hfr, List.mem_cons, not_or]
      constructor
      · rintro (rfl | ⟨-, hf⟩)
        · exact ⟨⟨l, htl⟩, hnd⟩
        · exact ⟨⟨l, htl⟩, hf⟩
      · rintro ⟨-, hf⟩
        by_cases hdc : d = c
        · exact .inl hdc
        · exact .inr ⟨hdc, hf⟩
  rw [hret]
  unfold Slab.takeChunk
  dsimp only
  rw [hcount]
  split
  next h0 =>
    have hcs : cs = [] := length_eq_zero_iff.mp h0
    obtain ⟨V', hcore, hag, htl, hfr⟩ := hpop.move ht .slabsFull
    have hfr' : V'.free t = cs := by rw [hfr, View.setFree_same]
    have hag' := (agree_setFree V t cs).trans hag
    exact ⟨V', finish hcore hag' htl hfr' (by decide) (by simp [hcs]) rfl, hag', ⟨_, htl⟩,
      by rwa [hfr'], rfl, hc, hclive⟩
  next h0 =>
    have hcs : cs ≠ [] := fun e => h0 (by rw [e]; rfl)
    have hag := agree_setFree V t cs
    exact ⟨_, finish hpop hag ht (View.setFree_same ..) (by decide) (by simp [hcs]) rfl, hag,
      ⟨_, ht⟩, by rwa [View.setFree_same], rfl, hc, hclive⟩

/-- A new slab joins its cache with all its chunks free. -/
theorem Inv.newSlab {answer : Nat} (h : Inv hhdm st live V) (hal : pageSize ∣ hhdm)
    (h0 : answer ≠ 0) (hpg : pageSize ∣ answer) (hnew : answer ∉ st.held) :
    ∃ V', Inv hhdm ((allocateNewSlab hhdm st i answer).1.listAdd i .slabsPartial
        (answer + hhdm)) live V' ∧ Agree V V' (answer + hhdm) ∧
      answer + hhdm ∈ V'.lists i .slabsPartial := by
  set page := answer + hhdm with hpage
  have hp : pageSize ∣ page := (Nat.dvd_add_iff_right hpg).mp hal
  have hp0 : page ≠ 0 := by omega
  have hpos : 0 < cacheSizes i := Nat.lt_of_lt_of_le (by decide) (cacheSizes_pos i)
  have hout : ∀ j k, page ∉ V.lists j k := by
    intro j k hm
    obtain ⟨phys, hphys, e⟩ := (h.held_iff page).mp ⟨j, k, hm⟩
    have : answer = phys := by omega
    exact hnew (this ▸ hphys)
  have hst : (allocateNewSlab hhdm st i answer).1 =
      { st with
        mem := formatSlab st.mem page i (cacheSizes i)
        held := insert answer st.held } := by
    rw [allocateNewSlab, if_neg h0, h.core.object_size]
  have hne : ∀ {j k b}, b ∈ V.lists j k → b ≠ page := fun hb e => hout _ _ (e ▸ hb)
  have hcore : Core (allocateNewSlab hhdm st i answer).1
      (V.setFree page (carved i page (chunksPer i))) := by
    rw [hst]
    refine ⟨h.core.object_size, fun j k => ?_, h.core.nodup, h.core.unique, fun {j k b} hb => ?_⟩
    · refine (h.core.dll j k).congr (fun b hb => ?_) fun b hb => ?_
      · exact congrArg ptr (read_formatSlab hp hpos (h.core.isPage hb).1 (hne hb))
      · exact congrArg ptr (read_formatSlab hp hpos (h.core.isPage hb).1 (hne hb))
    · rw [V.setFree_ne _ (hne hb)]
      exact (h.core.page hb).formatSlab_other hp hpos (hne hb)
  obtain ⟨hadd, -⟩ := hcore.listAdd (l := .slabsPartial) (s := page) (i := i)
    (by rw [V.setFree_same, hst]; exact pageOk_formatSlab hp hp0) hout
  have hag : Agree V ((V.setFree page (carved i page (chunksPer i))).setList i .slabsPartial
      (page :: V.lists i .slabsPartial)) page :=
    (agree_setFree V page _).trans (agree_setList _ fun b hb => by simp [hb])
  refine ⟨_, ?_, hag, by simp⟩
  have hon : page ∈ ((V.setFree page (carved i page (chunksPer i))).setList i .slabsPartial
      (page :: V.lists i .slabsPartial)).lists i .slabsPartial := by simp
  refine h.of_agree hadd hag hp (i := i) (fun j k hm => absurd hm (hout j k)) ?_ ?_ ?_ ?_ ?_
  · intro j k hm
    obtain ⟨rfl, rfl⟩ := hadd.unique hm hon
    refine ⟨rfl, by decide, ?_⟩
    have hlen : carved j page (chunksPer j) ≠ [] := fun e => by
      have := congrArg length e
      rw [length_carved] at this
      exact (chunksPer_pos j).ne' this
    simp [hlen]
  · intro b hb
    rw [hst]
    simp only [listAdd_held, exists_mem_insert]
    exact or_iff_right fun e => hb e
  · rw [hst]
    exact iff_of_true ⟨i, _, hon⟩ ⟨answer, by simp, rfl⟩
  · exact fun c _ => Iff.rfl
  · intro c hc
    refine iff_of_false (fun hm => ?_) fun hm => ?_
    · obtain ⟨j, k, b, hb, hcb, -⟩ := (h.live_iff c).mp hm
      refine hne hb ?_
      rw [← hcb.pageBase_eq (h.core.page hb).page, hc.pageBase_eq hp]
    · exact hm.2 (by simpa using mem_carved_all.mpr hc)

/-- The slab `kmalloc` picks is a partial one of its cache. -/
theorem Inv.targetSlab {answer : Nat} (h : Inv hhdm st live V) (hal : pageSize ∣ hhdm)
    (ha : MayAnswer st answer) :
    (targetSlab hhdm st i answer).2 = 0 ∧ (targetSlab hhdm st i answer).1 = st ∨
      (targetSlab hhdm st i answer).2 ≠ 0 ∧
      st.held ⊆ (targetSlab hhdm st i answer).1.held ∧
      ∃ V', Inv hhdm (targetSlab hhdm st i answer).1 live V' ∧
        Agree V V' (targetSlab hhdm st i answer).2 ∧
        (targetSlab hhdm st i answer).2 ∈ V'.lists i .slabsPartial := by
  have hhead := (h.core.dll i .slabsPartial).head_eq
  have hfree : (st.caches i).head .slabsFree = 0 := by
    have := (h.core.dll i .slabsFree).head_eq
    rw [h.no_free i] at this
    exact ptr_eq_none.mp this
  unfold Slab.targetSlab
  dsimp only
  rw [hfree]
  split
  next =>
    simp only [ne_eq, not_true_eq_false, if_false]
    by_cases h0 : answer = 0
    · left
      simp [allocateNewSlab, h0]
    · right
      have hr : (allocateNewSlab hhdm st i answer).2 = answer + hhdm := by
        simp [allocateNewSlab, h0]
      have hne : answer + hhdm ≠ 0 := by omega
      obtain ⟨hpg, hnew⟩ := ha.resolve_left h0
      rw [hr, if_neg hne]
      refine ⟨hne, ?_, h.newSlab hal h0 hpg hnew⟩
      simp [allocateNewSlab, h0]
  next h0 =>
    right
    rw [ptr_of_ne h0] at hhead
    refine ⟨h0, Finset.Subset.refl _, V, h, ?_, mem_of_mem_head? hhead.symm⟩
    exact ⟨fun _ _ _ => Iff.rfl, fun _ => rfl⟩

end Inv

/-- The allocator between two calls: as the view describes it, and every slab page has
a live chunk. -/
structure SlabOk (hhdm : Nat) (s : Sys) (V : View) : Prop extends Inv hhdm s.st s.live V where
  busy : ∀ {i l pg}, pg ∈ V.lists i l → (V.free pg).length < chunksPer i

section Calls

variable {hhdm : Nat} {s : Sys} {V : View} {i : CacheId} {l : SlabList} {answer p t c : Nat}

theorem slabOk_init (hhdm : Nat) (m : Words) :
    SlabOk hhdm (Sys.init m) ⟨fun _ _ => [], fun _ => []⟩ where
  core :=
    { object_size := fun _ => rfl
      dll := fun _ _ => rfl
      nodup := fun _ _ => nodup_nil
      unique := fun h => by cases h
      page := fun h => by cases h }
  no_free := fun _ => rfl
  full_iff := fun h => by cases h
  held_iff := fun pg => by simp [Sys.init, initSlab]
  live_iff := fun c => by simp [Sys.init]
  busy := fun h => by cases h

/-- `kmalloc` returns null and changes nothing but the console, or returns a chunk that was not
live. -/
theorem SlabOk.kmalloc (h : SlabOk hhdm s V) (hal : pageSize ∣ hhdm) (size : Nat)
    (ha : MayAnswer s.st answer) :
    s.st.held ⊆ (Slab.kmalloc hhdm s.st size answer).1.held ∧
    ∃ V', SlabOk hhdm (s.kmalloc hhdm size answer) V' ∧
      ((Slab.kmalloc hhdm s.st size answer).2 ≠ 0 →
        (Slab.kmalloc hhdm s.st size answer).2 ∉ s.live ∧
        ∃ i l pg, pg ∈ V'.lists i l ∧ IsChunk i pg (Slab.kmalloc hhdm s.st size answer).2 ∧
          size ≤ cacheSizes i) := by
  unfold Sys.kmalloc Slab.kmalloc
  split
  next => exact ⟨Finset.Subset.refl _, V, h, fun hne => absurd rfl hne⟩
  next =>
    split
    next =>
      refine ⟨Finset.Subset.refl _, V, ?_, fun hne => absurd rfl hne⟩
      exact { h with core := ⟨h.core.object_size, h.core.dll, h.core.nodup, h.core.unique,
        h.core.page⟩ }
    next =>
      split
      next => exact ⟨Finset.Subset.refl _, V, h, fun hne => absurd rfl hne⟩
      next i hfind =>
        have hsize : size ≤ cacheSizes i := by simpa using find?_some hfind
        rcases h.targetSlab hal ha (i := i) with ⟨h0, hst⟩ | ⟨h0, hheld, V₁, h₁, hag₁, ht⟩
        · simp only [h0, if_true, hst]
          exact ⟨Finset.Subset.refl _, V, h, fun hne => absurd rfl hne⟩
        · obtain ⟨V₂, h₂, hag₂, ⟨l, hl⟩, hlen, hheld₂, hc, hclive⟩ := h₁.takeChunk ht
          simp only [h0, if_false, hc.ne_zero]
          refine ⟨hheld₂ ▸ hheld, V₂, ⟨h₂, fun {j k b} hb => ?_⟩, fun _ => ?_⟩
          · by_cases hbt : b = (targetSlab hhdm s.st i answer).2
            · rw [(h₂.core.unique hb (hbt ▸ hl)).1, hbt]
              exact hlen
            · have hag := hag₁.trans hag₂
              rw [hag.free hbt]
              exact h.busy ((hag.lists hbt j k).mp hb)
          · exact ⟨hclive, i, l, _, hl, hc, hsize⟩

/-- The page of a live chunk, as `kfree` finds it. -/
theorem Inv.page_of_live {st : State} {live : Finset Nat} (h : Inv hhdm st live V)
    (hc : c ∈ live) :
    ∃ i l, pageBase c ∈ V.lists i l ∧ IsChunk i (pageBase c) c ∧ c ∉ V.free (pageBase c) ∧
      Fin.ofNat numCaches (read st.mem (pageBase c) .cache) = i := by
  obtain ⟨i, l, pg, hpg, hch, hf⟩ := (h.live_iff c).mp hc
  have hok := h.core.page hpg
  have hbase := hch.pageBase_eq hok.page
  refine ⟨i, l, ?_, ?_, ?_, ?_⟩
  · rwa [hbase]
  · rwa [hbase]
  · rwa [hbase]
  · rw [hbase, hok.cache_eq]
    exact Fin.ofNat_val_eq_self i

theorem Inv.chunkSize_eq {st : State} {live : Finset Nat} (h : Inv hhdm st live V)
    (hpg : t ∈ V.lists i l) (hc : IsChunk i t c) : chunkSize st c = cacheSizes i := by
  have hok := h.core.page hpg
  rw [chunkSize, hc.pageBase_eq hok.page, hok.cache_eq, Fin.ofNat_val_eq_self,
    h.core.object_size]

/-- Two live chunks do not overlap. -/
theorem Inv.live_disjoint {st : State} {live : Finset Nat} (h : Inv hhdm st live V)
    (hp : p ∈ live) (hc : c ∈ live) (hne : p ≠ c) :
    p + chunkSize st p ≤ c ∨ c + chunkSize st c ≤ p := by
  obtain ⟨i, l, hpm, hpc, -, -⟩ := h.page_of_live hp
  obtain ⟨j, k, hcm, hcc, -, -⟩ := h.page_of_live hc
  rw [h.chunkSize_eq hpm hpc, h.chunkSize_eq hcm hcc]
  by_cases hb : pageBase p = pageBase c
  · rw [hb] at hpm hpc
    obtain ⟨rfl, -⟩ := h.core.unique hpm hcm
    exact hpc.disjoint hcc hne
  · have h1 := hpc.le
    have h2 := hpc.end_le
    have h3 := hcc.le
    have h4 := hcc.end_le
    unfold pageBase pageSize dataOffset at *
    omega

/-! ## `kfree` -/

/-- A slab that was full moves to the partial ones before it gets its chunk back. -/
theorem Inv.toPartial {st : State} {live : Finset Nat} (h : Inv hhdm st live V)
    (ht : t ∈ V.lists i l) :
    let st₁ := if read st.mem t .freeChunks = 0 then
      (st.listRemove i .slabsFull t).listAdd i .slabsPartial t else st
    ∃ V₁, Core st₁ V₁ ∧ Agree V V₁ t ∧ t ∈ V₁.lists i .slabsPartial ∧ V₁.free = V.free ∧
      st₁.held = st.held := by
  have hcount := (h.core.page ht).count_eq
  intro st₁
  by_cases h0 : read st.mem t .freeChunks = 0
  · have hnil : V.free t = [] := length_eq_zero_iff.mp (hcount.symm.trans h0)
    obtain rfl := (h.full_iff ht).mpr hnil
    obtain ⟨V₁, hcore, hag, hm, hfr⟩ := h.core.move ht .slabsPartial
    have hst : st₁ = (st.listRemove i .slabsFull t).listAdd i .slabsPartial t := if_pos h0
    exact ⟨V₁, hst ▸ hcore, hag, hm, hfr, hst ▸ rfl⟩
  · have hst : st₁ = st := if_neg h0
    refine ⟨V, hst ▸ h.core, ⟨fun _ _ _ => Iff.rfl, fun _ => rfl⟩, ?_, rfl, hst ▸ rfl⟩
    cases l with
    | slabsPartial => exact ht
    | slabsFree =>
      rw [h.no_free i] at ht
      cases ht
    | slabsFull =>
      rw [(h.full_iff ht).mp rfl] at hcount
      exact absurd hcount h0

/-- With the chunk back, the free list is complete exactly if no other chunk of the page
is live. -/
theorem Inv.all_free_iff {st : State} {live : Finset Nat} (h : Inv hhdm st live V)
    (ht : t ∈ V.lists i l) (hp : IsChunk i t p) {m : Words}
    (hpg : PageOk m (p :: V.free t) i t) :
    (p :: V.free t).length = chunksPer i ↔ ∀ q ∈ live, pageBase q = t → q = p := by
  rw [hpg.length_eq_iff]
  constructor
  · intro hall q hq hqt
    obtain ⟨j, k, hm, hqc, hf, -⟩ := h.page_of_live hq
    rw [hqt] at hm hqc hf
    obtain ⟨rfl, -⟩ := h.core.unique hm ht
    exact (mem_cons.mp (hall q hqc)).resolve_right hf
  · intro hlast c hc
    by_cases hf : c ∈ V.free t
    · exact mem_cons_of_mem _ hf
    · have hcl := (h.live_chunk_iff ht hc).mpr hf
      rw [hlast c hcl (hc.pageBase_eq hpg.page)]
      exact mem_cons_self

/-- A live chunk is given back, and its page with it if no other chunk of the page is
live. -/
theorem SlabOk.giveChunk (h : SlabOk hhdm s V) (ht : t ∈ V.lists i l) (hp : IsChunk i t p)
    (hf : p ∉ V.free t) :
    ∃ V', SlabOk hhdm ⟨giveChunk hhdm s.st i t p, s.live.erase p⟩ V' ∧
      (giveChunk hhdm s.st i t p).held =
        if ∀ q ∈ s.live, pageBase q = t → q = p then s.st.held.erase (t - hhdm)
        else s.st.held := by
  obtain ⟨V₁, hcore, hag, hm, hfr, hheld⟩ := h.toInv.toPartial ht
  have hpage := (h.core.page ht).page
  have hin : ∀ j k, t ∈ V.lists j k → j = i := fun j k hb => (h.core.unique hb ht).1
  have hpush := hcore.push hm hp (by rwa [hfr])
  have hpg := hpush.page hm
  rw [View.setFree_same, hfr] at hpg
  have hlast := h.all_free_iff ht hp hpg
  have hag₂ := hag.trans (agree_setFree V₁ t (p :: V₁.free t))
  have hother : ∀ c, ¬IsChunk i t c → (c ∈ s.live.erase p ↔ c ∈ s.live) := by
    intro c hc
    rw [mem_erase]
    exact and_iff_right fun e => hc (e ▸ hp)
  obtain ⟨phys, hphys, rfl⟩ := (h.held_iff t).mp ⟨i, l, ht⟩
  unfold Slab.giveChunk
  dsimp only
  rw [hpg.count_eq, hpg.total_eq, if_congr hlast.symm rfl rfl]
  split
  next hfull =>
    -- the page is complete again and leaves the cache
    obtain ⟨l₁, l₂, hs⟩ := append_of_mem hm
    obtain ⟨hrem, -⟩ := hpush.listRemove hs
    have hag₃ : Agree V _ (phys + hhdm) := hag₂.trans
      (agree_setList _ (L := l₁ ++ l₂) (i := i) (l := .slabsPartial) fun b hb => by
        rw [View.setFree_lists, hs]; simp [hb])
    have hgone := hpush.not_mem_removed hs
    refine ⟨_, ⟨h.toInv.of_agree (i := i) ?_ hag₃ hpage hin (fun j k hb => absurd hb (hgone j k)) ?_
      ?_ hother ?_, fun {j k b} hb => ?_⟩, ?_⟩
    · exact ⟨hrem.object_size, hrem.dll, hrem.nodup, hrem.unique, hrem.page⟩
    · intro b hb
      simp only [listRemove_held, mem_erase, hheld, Nat.add_sub_cancel]
      constructor
      · rintro ⟨q, ⟨-, hq⟩, e⟩
        exact ⟨q, hq, e⟩
      · rintro ⟨q, hq, e⟩
        exact ⟨q, ⟨fun e' => hb (e' ▸ e), hq⟩, e⟩
    · refine iff_of_false (fun ⟨j, k, hb⟩ => hgone j k hb) ?_
      rintro ⟨q, hq, e⟩
      rw [← Nat.add_right_cancel e, Nat.add_sub_cancel] at hq
      exact notMem_erase _ _ hq
    · intro c hc
      refine iff_of_false (fun hcl => ?_) fun hcl => hgone i _ hcl.1.choose_spec
      obtain ⟨hne, hcl⟩ := mem_erase.mp hcl
      exact hne (hlast.mp hfull c hcl (hc.pageBase_eq hpage))
    · have hbt : b ≠ phys + hhdm := fun e => hgone j k (e ▸ hb)
      rw [hag₃.free hbt]
      exact h.busy ((hag₃.lists hbt j k).mp hb)
    · rw [listRemove_held, hheld]
  next hfull =>
    refine ⟨_, ⟨h.toInv.of_agree (i := i) hpush hag₂ hpage hin ?_ ?_ ?_ hother ?_,
      fun {j k b} hb => ?_⟩, hheld⟩
    · intro j k hb
      obtain ⟨rfl, rfl⟩ := hpush.unique hb hm
      exact ⟨rfl, by decide, by simp⟩
    · exact fun b _ => by rw [hheld]
    · exact iff_of_true ⟨i, _, hm⟩ ⟨phys, hheld ▸ hphys, rfl⟩
    · intro c hc
      rw [mem_erase, h.live_chunk_iff ht hc, View.setFree_same, hfr, List.mem_cons, not_or]
      exact (and_iff_right ⟨_, hm⟩).symm
    · by_cases hbt : b = phys + hhdm
      · subst hbt
        rw [(hpush.unique hb hm).1, View.setFree_same, hfr]
        exact lt_of_le_of_ne hpg.length_le hfull
      · rw [hag₂.free hbt]
        exact h.busy ((hag₂.lists hbt j k).mp hb)

theorem SlabOk.kfree (h : SlabOk hhdm s V) (hp : p ∈ s.live) :
    ∃ V', SlabOk hhdm (s.kfree hhdm p) V' ∧
      (Slab.kfree hhdm s.st p).held =
        if ∀ q ∈ s.live, pageBase q = pageBase p → q = p then
          s.st.held.erase (pageBase p - hhdm)
        else s.st.held := by
  obtain ⟨i, l, ht, hch, hf, hi⟩ := h.page_of_live hp
  have hgive := h.giveChunk ht hch hf
  unfold Sys.kfree Slab.kfree
  rw [if_neg hch.ne_zero]
  simp only [(h.core.page ht).magic_eq, ne_eq, not_true_eq_false, if_false, hi]
  exact hgive

/-! ## Stores of the callers -/

/-- A word of a slab header belongs to the allocator. -/
theorem Inv.owned_header (h : Inv hhdm s.st s.live V) (ht : t ∈ V.lists i l) (f : Field) :
    Owned hhdm s (t + f.offset) := by
  have hpg := (h.core.page ht).page
  have hf := f.offset_lt
  obtain ⟨phys, hphys, rfl⟩ := (h.held_iff t).mp ⟨i, l, ht⟩
  refine ⟨⟨phys, hphys, by omega, by unfold pageSize; omega⟩, fun c hc hin => ?_⟩
  obtain ⟨j, k, hb, hch, -, -⟩ := h.page_of_live hc
  rw [h.chunkSize_eq hb hch] at hin
  have h1 := hch.le
  have h2 := hch.end_le
  have hbase := (h.core.page hb).page
  obtain ⟨x, hx⟩ := hpg
  obtain ⟨y, hy⟩ := hbase
  rw [hx] at hin
  rw [hy] at h1 h2
  unfold pageSize dataOffset at *
  omega

/-- The link in a free chunk belongs to the allocator. -/
theorem Inv.owned_free (h : Inv hhdm s.st s.live V) (ht : t ∈ V.lists i l)
    (hc : c ∈ V.free t) : Owned hhdm s c := by
  have hpg := h.core.page ht
  have hct := hpg.chunk c hc
  have h1 := hct.le
  have h2 := hct.lt
  obtain ⟨phys, hphys, rfl⟩ := (h.held_iff t).mp ⟨i, l, ht⟩
  refine ⟨⟨phys, hphys, by omega, h2⟩, fun d hd hin => ?_⟩
  obtain ⟨j, k, hb, hdb, hdf, -⟩ := h.page_of_live hd
  rw [h.chunkSize_eq hb hdb] at hin
  by_cases hbt : pageBase d = phys + hhdm
  · rw [hbt] at hb hdb hdf
    obtain ⟨rfl, -⟩ := h.core.unique hb ht
    have hne : d ≠ c := fun e => hdf (e ▸ hc)
    have := hdb.disjoint hct hne
    have := cacheSizes_pos j
    omega
  · -- the two chunks lie in different pages
    have h3 := hdb.le
    have h4 := hdb.end_le
    have hb' := (h.core.page hb).page
    have hp' := hpg.page
    generalize pageBase d = b at *
    generalize phys + hhdm = t at *
    obtain ⟨x, rfl⟩ := hp'
    obtain ⟨y, rfl⟩ := hb'
    unfold pageSize dataOffset at *
    omega

theorem SlabOk.store (h : SlabOk hhdm s V) {m : Words}
    (hm : ∀ a, Owned hhdm s a → m a = s.st.mem a) :
    SlabOk hhdm { s with st := { s.st with mem := m } } V := by
  have hread : ∀ {i l pg} (f : Field), pg ∈ V.lists i l → read m pg f = read s.st.mem pg f :=
    fun f hpg => hm _ (h.owned_header hpg f)
  refine { h with core := ?_ }
  refine ⟨h.core.object_size, fun i l => ?_, h.core.nodup, h.core.unique, fun {i l pg} hpg => ?_⟩
  · exact (h.core.dll i l).congr (fun b hb => congrArg ptr (hread .next hb))
      fun b hb => congrArg ptr (hread .prev hb)
  · exact (h.core.page hpg).congr (fun f _ _ => hread f hpg)
      fun c hc => hm c (h.owned_free hpg hc)

end Calls

/-! ## Whole runs -/

theorem SlabOk.step {hhdm : Nat} {s s' : Sys} {V : View} (hal : pageSize ∣ hhdm)
    (h : SlabOk hhdm s V) (st : Step hhdm s s') : ∃ V', SlabOk hhdm s' V' := by
  cases st with
  | kmalloc size ha =>
    obtain ⟨-, V', h', -⟩ := h.kmalloc hal size ha
    exact ⟨V', h'⟩
  | kfree hp =>
    rcases hp with rfl | hp
    · have hnot : 0 ∉ s.live := fun hm => by
        obtain ⟨i, l, -, hch, -⟩ := h.page_of_live hm
        exact hch.ne_zero rfl
      refine ⟨V, ?_⟩
      rw [Sys.kfree, erase_eq_of_notMem hnot]
      exact h
    · obtain ⟨V', h', -⟩ := h.kfree hp
      exact ⟨V', h'⟩
  | store m hm => exact ⟨V, h.store hm⟩

theorem slabOk_of_reachable {hhdm : Nat} {s : Sys} (hal : pageSize ∣ hhdm)
    (h : Reachable hhdm s) : ∃ V, SlabOk hhdm s V := by
  obtain ⟨m, h⟩ := h
  induction h with
  | refl => exact ⟨_, slabOk_init hhdm m⟩
  | tail _ st ih =>
    obtain ⟨V, hV⟩ := ih
    exact hV.step hal st

/-- The slab allocator is correct in every state of every run.  Memory spells out a
view, in which each slab page is on one list of its cache and free and live chunks make
up the page.  A chunk that `kmalloc` returns is aligned, lies behind the header inside
one page, is large enough and overlaps no live chunk.  `kmalloc` gives no page back, and
`kfree` gives the page back exactly if no other chunk of it is live. -/
theorem slab_allocator_correct (hhdm : Nat) (hal : pageSize ∣ hhdm) (s : Sys)
    (h : Reachable hhdm s) :
    (∃ V, SlabOk hhdm s V) ∧
    (∀ size answer, MayAnswer s.st answer →
      let r := kmalloc hhdm s.st size answer
      s.st.held ⊆ r.1.held ∧
      (r.2 ≠ 0 →
        r.2 % 16 = 0 ∧
        (∃ phys ∈ r.1.held, phys + hhdm + slabHeaderSize ≤ r.2 ∧
          r.2 + chunkSize r.1 r.2 ≤ phys + hhdm + pageSize) ∧
        size ≤ chunkSize r.1 r.2 ∧
        ∀ q ∈ s.live, r.2 + chunkSize r.1 r.2 ≤ q ∨ q + chunkSize r.1 q ≤ r.2)) ∧
    kfree hhdm s.st 0 = s.st ∧
    ∀ p ∈ s.live, (kfree hhdm s.st p).held =
      if ∀ q ∈ s.live, pageBase q = pageBase p → q = p then
        s.st.held.erase (pageBase p - hhdm)
      else s.st.held := by
  obtain ⟨V, hV⟩ := slabOk_of_reachable hal h
  refine ⟨⟨V, hV⟩, fun size answer ha => ?_, rfl, fun p hp => ?_⟩
  · obtain ⟨hheld, V', h', hret⟩ := hV.kmalloc hal size ha
    refine ⟨hheld, fun h0 => ?_⟩
    obtain ⟨hnew, i, l, pg, hpg, hch, hsize⟩ := hret h0
    have hpage := (h'.core.page hpg).page
    have hcs : chunkSize (kmalloc hhdm s.st size answer).1 (kmalloc hhdm s.st size answer).2 =
        cacheSizes i := h'.chunkSize_eq hpg hch
    have hlive : (s.kmalloc hhdm size answer).live =
        insert (kmalloc hhdm s.st size answer).2 s.live := if_neg h0
    refine ⟨hch.aligned hpage, ?_, by rw [hcs]; exact hsize, fun q hq => ?_⟩
    · obtain ⟨phys, hphys, rfl⟩ := (h'.held_iff pg).mp ⟨i, l, hpg⟩
      refine ⟨phys, hphys, le_trans ?_ hch.le, by rw [hcs]; exact hch.end_le⟩
      exact Nat.add_le_add_left (by decide) _
    · refine h'.live_disjoint ?_ ?_ fun e => hnew (e ▸ hq)
      · rw [hlive]; exact mem_insert_self ..
      · rw [hlive]; exact mem_insert_of_mem hq
  · obtain ⟨V', -, hheld⟩ := hV.kfree hp
    exact hheld

/-- One chunk of the largest size, whose page holds no other. -/
def oneChunk : Sys := (Sys.init fun _ => 0).kmalloc 0xffff800000000000 2048 0x1000

theorem oneChunk_reachable : Reachable 0xffff800000000000 oneChunk :=
  ⟨_, .single (.kmalloc 2048 (.inr ⟨by decide, by decide⟩))⟩

theorem oneChunk_live : oneChunk.live = {0xffff800000001040} := by decide

theorem slab_allocator_correct_oneChunk :
    0xffff800000001040 ∈ oneChunk.live ∧
      (kfree 0xffff800000000000 oneChunk.st 0xffff800000001040).held =
        oneChunk.st.held.erase 0x1000 := by
  have hmem : 0xffff800000001040 ∈ oneChunk.live := by simp [oneChunk_live]
  refine ⟨hmem, ?_⟩
  have h := (slab_allocator_correct 0xffff800000000000 (by decide) oneChunk
    oneChunk_reachable).2.2.2 _ hmem
  rwa [if_pos (by simp [oneChunk_live])] at h

end Aeryk.Slab
