import Aeryk.Slab.Core

/-!
# New slabs

`allocate_new_slab` turns a fresh page into a slab with every chunk on its free list and
touches nothing outside the page.  The loop puts the chunks in front of the list one
after the other, so the list holds them in falling order.
-/

namespace Aeryk.Slab

open Function Lib

/-- The first `k` chunks of a page, the last one first. -/
def carved (i : CacheId) (pg : Nat) : Nat → List Nat
  | 0 => []
  | k + 1 => (pg + dataOffset + k * cacheSizes i) :: carved i pg k

section Carve

variable {m m' : Words} {i : CacheId} {pg c k : Nat}

theorem mem_carved : c ∈ carved i pg k ↔ ∃ n < k, c = pg + dataOffset + n * cacheSizes i := by
  induction k with
  | zero => simp [carved]
  | succ k ih =>
    simp only [carved, List.mem_cons, ih]
    constructor
    · rintro (h | ⟨n, hn, h⟩)
      · exact ⟨k, k.lt_succ_self, h⟩
      · exact ⟨n, hn.trans k.lt_succ_self, h⟩
    · rintro ⟨n, hn, h⟩
      rcases Nat.lt_succ_iff_lt_or_eq.mp hn with hn | rfl
      · exact .inr ⟨n, hn, h⟩
      · exact .inl h

@[simp] theorem length_carved : (carved i pg k).length = k := by
  induction k with
  | zero => rfl
  | succ k ih => simp [carved, ih]

theorem mem_carved_all : c ∈ carved i pg (chunksPer i) ↔ IsChunk i pg c := mem_carved

theorem next_not_carved : pg + dataOffset + k * cacheSizes i ∉ carved i pg k := by
  intro h
  obtain ⟨n, hn, h⟩ := mem_carved.mp h
  have h1 := Nat.mul_lt_mul_of_pos_right hn (Nat.lt_of_lt_of_le (by decide) (cacheSizes_pos i))
  omega

theorem nodup_carved : (carved i pg k).Nodup := by
  induction k with
  | zero => exact List.nodup_nil
  | succ k ih => exact List.nodup_cons.mpr ⟨next_not_carved, ih⟩

theorem FreeOk.subperm {free : List Nat} (h : FreeOk m free i pg) :
    free.Subperm (carved i pg (chunksPer i)) :=
  h.nodup.subperm fun c hc => mem_carved_all.mpr (h.chunk c hc)

theorem FreeOk.length_le {free : List Nat} (h : FreeOk m free i pg) :
    free.length ≤ chunksPer i := h.subperm.length_le.trans_eq length_carved

/-- The free list is as long as it can get exactly if every chunk is on it. -/
theorem FreeOk.length_eq_iff {free : List Nat} (h : FreeOk m free i pg) :
    free.length = chunksPer i ↔ ∀ c, IsChunk i pg c → c ∈ free := by
  constructor
  · intro hlen c hc
    have hperm := h.subperm.perm_of_length_le (by rw [length_carved, hlen])
    exact hperm.mem_iff.mpr (mem_carved_all.mpr hc)
  · intro hall
    have hsub : (carved i pg (chunksPer i)).Subperm free :=
      nodup_carved.subperm fun c hc => hall c (mem_carved_all.mp hc)
    have := hsub.length_le
    rw [length_carved] at this
    exact le_antisymm h.length_le this

/-- The loop test: there is room for chunk `k`. -/
theorem room_iff :
    pg + dataOffset + k * cacheSizes i + cacheSizes i ≤ pg + pageSize ↔ k < chunksPer i := by
  have hpos : 0 < cacheSizes i := Nat.lt_of_lt_of_le (by decide) (cacheSizes_pos i)
  rw [← Nat.succ_le_iff, chunksPer, Nat.le_div_iff_mul_le hpos, Nat.succ_mul]
  unfold pageSize dataOffset
  omega

/-- The loop puts the chunks from the `k`th one on in front of the list. -/
theorem FreeOk.carve (fuel : Nat) (h : FreeOk m (carved i pg k) i pg) (hk : k ≤ chunksPer i)
    (hfuel : chunksPer i ≤ k + fuel) :
    FreeOk (Slab.carve pg (cacheSizes i) (pg + pageSize) fuel m
      (pg + dataOffset + k * cacheSizes i)) (carved i pg (chunksPer i)) i pg := by
  induction fuel generalizing m k with
  | zero =>
    have hk' : k = chunksPer i := by omega
    subst hk'
    exact h
  | succ fuel ih =>
    unfold Slab.carve
    split
    next hroom =>
      have hlt := room_iff.mp hroom
      have hnext := ih (k := k + 1) (h.push ⟨k, hlt, rfl⟩ next_not_carved) hlt (by omega)
      rwa [Nat.succ_mul, ← Nat.add_assoc] at hnext
    next hroom =>
      have hk' : k = chunksPer i := by
        have := mt room_iff.mpr hroom
        omega
      subst hk'
      exact h

/-- A word of the page that is neither the free list, nor its length, nor behind the
header stays as it is. -/
theorem carve_frame {fuel objSize start a : Nat} (hstart : pg + dataOffset ≤ start)
    (hpos : 0 < objSize) (h1 : a ≠ pg + Field.freeList.offset)
    (h2 : a ≠ pg + Field.freeChunks.offset) (h3 : a < pg + dataOffset ∨ pg + pageSize ≤ a) :
    carve pg objSize (pg + pageSize) fuel m start a = m a := by
  induction fuel generalizing m start with
  | zero => rfl
  | succ fuel ih =>
    unfold carve
    split
    next hroom =>
      rw [ih (Nat.le_add_right_of_le hstart)]
      unfold pushChunk write setChunkNext
      rw [update_of_ne h2, update_of_ne h1, update_of_ne (by omega)]
    next => rfl

end Carve

/-! ## The whole page -/

section Format

variable {m : Words} {i j : CacheId} {pg b a : Nat} {free : List Nat}

theorem dataStart_eq (hpg : pageSize ∣ pg) :
    (pg + slabHeaderSize + 15) / 16 * 16 = pg + dataOffset := by
  obtain ⟨q, rfl⟩ := hpg
  unfold pageSize slabHeaderSize dataOffset
  omega

theorem chunksPer_le (i : CacheId) : chunksPer i ≤ pageSize := by revert i; decide

/-- The header as `allocate_new_slab` leaves it before the loop. -/
def header (m : Words) (pg : Nat) (i : CacheId) : Words :=
  write (write (write (write (write (setMagic (zeroPage m pg) pg slabMagic) pg .cache i) pg
    .next 0) pg .prev 0) pg .freeList 0) pg .freeChunks 0

theorem formatSlab_eq (hpg : pageSize ∣ pg) (objSize : Nat) :
    formatSlab m pg i objSize =
      let m' := carve pg objSize (pg + pageSize) pageSize (header m pg i) (pg + dataOffset)
      write m' pg .totalChunks (read m' pg .freeChunks) := by
  rw [← dataStart_eq hpg]
  rfl

theorem read_header {f : Field} (h1 : f ≠ .freeList) (h2 : f ≠ .freeChunks) {objSize : Nat}
    (hpos : 0 < objSize) :
    read (carve pg objSize (pg + pageSize) pageSize (header m pg i) (pg + dataOffset)) pg f =
      read (header m pg i) pg f := by
  have hlt : f.offset < dataOffset := f.offset_lt.trans (by decide)
  refine carve_frame le_rfl hpos ?_ ?_ (.inl (by omega))
  · exact fun e => h1 (Field.offset_inj (Nat.add_left_cancel e))
  · exact fun e => h2 (Field.offset_inj (Nat.add_left_cancel e))

theorem magic_header (hpg : pageSize ∣ pg) : magic (header m pg i) pg = slabMagic := by
  have hzero : read (zeroPage m pg) pg .magic = 0 :=
    if_pos ⟨Nat.le_add_right .., Nat.add_lt_add_left (by decide) _⟩
  unfold magic header
  simp only [ne_eq, reduceCtorEq, not_false_eq_true, read_write_field hpg, setMagic,
    read_write_same, hzero]
  decide

/-- A fresh page becomes a slab with all its chunks free. -/
theorem pageOk_formatSlab (hpg : pageSize ∣ pg) (h0 : pg ≠ 0) :
    PageOk (formatSlab m pg i (cacheSizes i)) (carved i pg (chunksPer i)) i pg := by
  have hpos : 0 < cacheSizes i := Nat.lt_of_lt_of_le (by decide) (cacheSizes_pos i)
  have hnil : FreeOk (header m pg i) (carved i pg 0) i pg := by
    refine ⟨hpg, ?_, ?_, List.nodup_nil, fun c hc => by cases hc⟩
    · simp [header, hpg, carved]
    · simp [header, carved]
  have hfree := hnil.carve pageSize (Nat.zero_le _)
    ((chunksPer_le i).trans (Nat.le_add_left ..))
  rw [Nat.zero_mul, Nat.add_zero] at hfree
  rw [formatSlab_eq hpg]
  refine ⟨hfree.congr ?_ fun c hc => ?_, h0, ?_, ?_, ?_⟩
  · rintro f (rfl | rfl) <;> exact read_write_field hpg (by decide)
  · exact write_chunk hpg ((hfree.chunk c hc).mod_ge hpg)
  · rw [magic, read_write_field hpg (by decide), read_header (by decide) (by decide) hpos]
    exact magic_header hpg
  · rw [read_write_field hpg (by decide), read_header (by decide) (by decide) hpos]
    simp [header, hpg]
  · simp only [read_write_same, hfree.count_eq, length_carved]

/-- Nothing outside the page changes. -/
theorem formatSlab_frame (hpg : pageSize ∣ pg) {objSize : Nat} (hpos : 0 < objSize)
    (ha : a < pg ∨ pg + pageSize ≤ a) : formatSlab m pg i objSize a = m a := by
  have hne : ∀ f : Field, a ≠ pg + f.offset := fun f => by
    have := f.offset_lt
    unfold pageSize at ha
    omega
  rw [formatSlab_eq hpg]
  rw [write, update_of_ne (hne _),
    carve_frame le_rfl hpos (hne _) (hne _) (ha.imp_left fun h => Nat.lt_add_right _ h)]
  simp only [header, write, setMagic, update_of_ne (hne _), zeroPage]
  rw [if_neg (by omega)]

theorem read_formatSlab {f : Field} (hpg : pageSize ∣ pg) {objSize : Nat} (hpos : 0 < objSize)
    (hb : pageSize ∣ b) (hne : b ≠ pg) :
    read (formatSlab m pg i objSize) b f = read m b f := by
  refine formatSlab_frame hpg hpos ?_
  obtain ⟨x, rfl⟩ := hpg
  obtain ⟨y, rfl⟩ := hb
  have := f.offset_lt
  unfold pageSize at *
  omega

theorem PageOk.formatSlab_other (h : PageOk m free j b) (hpg : pageSize ∣ pg) {objSize : Nat}
    (hpos : 0 < objSize) (hne : b ≠ pg) : PageOk (formatSlab m pg i objSize) free j b := by
  refine h.congr (fun f _ _ => read_formatSlab hpg hpos h.page hne) fun c hc => ?_
  refine formatSlab_frame hpg hpos ?_
  have h1 := (h.chunk c hc).le
  have h2 := (h.chunk c hc).lt
  have hb := h.page
  obtain ⟨x, rfl⟩ := hpg
  obtain ⟨y, rfl⟩ := hb
  unfold pageSize at *
  omega

end Format

end Aeryk.Slab
