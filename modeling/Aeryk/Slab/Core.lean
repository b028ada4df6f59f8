import Aeryk.Lib.Linked
import Aeryk.Slab.Alloc

/-!
# The lists and pages of the slab allocator

What the words in memory stand for.  A `View` says which pages are on which list of which cache and
which chunks of a page are on its free list, and `Core` says that memory and the list heads spell
out the view.  The list operations and the chunk operations are operations on the view.

The header words at offsets 8 and 16 hold the list links and nothing else does, so the list
operations leave all that is said of a page in place (`LinkFrame`).
-/

namespace Aeryk.Slab

open List Function Lib

/-! ## Words and pointers -/

def ptr (a : Nat) : Option Nat := if a = 0 then none else some a

@[simp] theorem ptr_zero : ptr 0 = none := rfl

theorem ptr_of_ne {a : Nat} (h : a ≠ 0) : ptr a = some a := if_neg h

theorem ptr_eq_none {a : Nat} : ptr a = none ↔ a = 0 := by
  unfold ptr; split <;> simp [*]

theorem ptr_eq_some {a b : Nat} : ptr a = some b ↔ a = b ∧ a ≠ 0 := by
  unfold ptr; split <;> simp [*]

/-- `(*s).next` as a pointer. -/
def nextOf (m : Words) (s : Nat) : Option Nat := ptr (read m s .next)

/-- `(*s).prev` as a pointer. -/
def prevOf (m : Words) (s : Nat) : Option Nat := ptr (read m s .prev)

theorem Field.offset_lt (f : Field) : f.offset < 56 := by cases f <;> decide

theorem Field.offset_inj {f g : Field} (h : f.offset = g.offset) : f = g := by
  cases f <;> cases g <;> first | rfl | cases h

section Memory

variable {m m' : Words} {s t : Nat} {f g : Field} {v : Nat}

@[simp] theorem read_write_same : read (write m s f v) s f = v := update_self ..

theorem read_write_of_ne (hs : pageSize ∣ s) (ht : pageSize ∣ t) (h : t ≠ s ∨ g ≠ f) :
    read (write m s f v) t g = read m t g := by
  refine update_of_ne ?_ _ _
  obtain ⟨a, rfl⟩ := hs
  obtain ⟨b, rfl⟩ := ht
  have hf := f.offset_lt
  have hg := g.offset_lt
  unfold pageSize at *
  rcases h with h | h
  · omega
  · have := mt Field.offset_inj h
    omega

@[simp] theorem read_write_field (hs : pageSize ∣ s) (h : g ≠ f) :
    read (write m s f v) s g = read m s g := read_write_of_ne hs hs (.inr h)

/-- A store to a header field leaves the words behind the headers alone. -/
theorem write_chunk {c : Nat} (hs : pageSize ∣ s) (hc : 56 ≤ c % pageSize) :
    write m s f v c = m c := by
  refine update_of_ne ?_ _ _
  obtain ⟨a, rfl⟩ := hs
  have hf := f.offset_lt
  unfold pageSize at *
  omega

/-- A store to a word behind the headers leaves the header fields alone. -/
theorem read_setChunkNext {c : Nat} (hs : pageSize ∣ s) (hc : 56 ≤ c % pageSize) :
    read (setChunkNext m c v) s f = read m s f := by
  refine update_of_ne ?_ _ _
  obtain ⟨a, rfl⟩ := hs
  have hf := f.offset_lt
  unfold pageSize at *
  omega

end Memory

/-- The two memories differ in list links at most. -/
def LinkFrame (m m' : Words) : Prop :=
  ∀ a, a % pageSize ≠ Field.next.offset → a % pageSize ≠ Field.prev.offset → m' a = m a

section LinkFrame

variable {m m' m'' : Words}

theorem LinkFrame.refl (m : Words) : LinkFrame m m := fun _ _ _ => rfl

theorem LinkFrame.trans (h : LinkFrame m m') (h' : LinkFrame m' m'') : LinkFrame m m'' :=
  fun a h1 h2 => (h' a h1 h2).trans (h a h1 h2)

theorem linkFrame_write {s v : Nat} {f : Field} (hs : pageSize ∣ s)
    (hf : f = .next ∨ f = .prev) : LinkFrame m (write m s f v) := by
  intro a h1 h2
  refine update_of_ne ?_ _ _
  rintro rfl
  have hlt : f.offset < pageSize := f.offset_lt.trans (by decide)
  rw [Nat.add_mod, Nat.mod_eq_zero_of_dvd hs, Nat.zero_add, Nat.mod_mod,
    Nat.mod_eq_of_lt hlt] at h1 h2
  rcases hf with rfl | rfl
  · exact h1 rfl
  · exact h2 rfl

theorem LinkFrame.read_eq {s : Nat} {f : Field} (h : LinkFrame m m') (hs : pageSize ∣ s)
    (hn : f ≠ .next) (hp : f ≠ .prev) : read m' s f = read m s f := by
  have hmod : (s + f.offset) % pageSize = f.offset := by
    have hlt : f.offset < pageSize := f.offset_lt.trans (by decide)
    rw [Nat.add_mod, Nat.mod_eq_zero_of_dvd hs, Nat.zero_add, Nat.mod_mod,
      Nat.mod_eq_of_lt hlt]
  refine h _ ?_ ?_
  · rw [hmod]; exact mt Field.offset_inj hn
  · rw [hmod]; exact mt Field.offset_inj hp

end LinkFrame

/-! ## `list_remove` and `list_add` -/

section Lists

variable {m : Words} {head s b v : Nat} {f g : Field} {l l₁ l₂ : List Nat}

theorem read_writeIf_of_ne (hs : pageSize ∣ s) (hb : pageSize ∣ b) (h : b ≠ s ∨ g ≠ f) :
    read (writeIf m s f v) b g = read m b g := by
  unfold writeIf
  split
  · exact read_write_of_ne hs hb h
  · rfl

theorem ptr_read_writeIf (hs : pageSize ∣ s) (hb : pageSize ∣ b) :
    ptr (read (writeIf m s f v) b f) = if ptr s = some b then ptr v else ptr (read m b f) := by
  unfold writeIf
  by_cases h0 : s = 0
  · subst h0; simp
  · rw [if_pos h0, ptr_of_ne h0]
    by_cases hsb : s = b
    · subst hsb; simp
    · rw [if_neg fun e => hsb (Option.some.inj e), read_write_of_ne hs hb (.inl (Ne.symm hsb))]

theorem linkFrame_writeIf (hs : pageSize ∣ s) (hf : f = .next ∨ f = .prev) :
    LinkFrame m (writeIf m s f v) := by
  unfold writeIf
  split
  · exact linkFrame_write hs hf
  · exact LinkFrame.refl m

/-- The slab to be removed: it and its neighbours are pages, and it is not its own
neighbour. -/
structure Removable (m : Words) (s : Nat) : Prop where
  page : pageSize ∣ s
  prev_page : pageSize ∣ read m s .prev
  next_page : pageSize ∣ read m s .next
  ne_prev : s ≠ read m s .prev
  ne_next : s ≠ read m s .next

/-- `list_remove` with the two links of the slab read before the first store. -/
theorem Removable.listRemove_eq (h : Removable m s) (head : Nat) :
    listRemove m head s =
      (writeIf (writeIf m (read m s .prev) .next (read m s .next)) (read m s .next) .prev
        (read m s .prev), if head = s then read m s .next else head) := by
  have h1 := fun f => read_writeIf_of_ne (m := m) (f := .next) (g := f) (v := read m s .next)
    h.prev_page h.page (.inl h.ne_prev)
  simp only [listRemove, h1]
  rw [read_writeIf_of_ne h.next_page h.page (.inl h.ne_next), h1]

theorem Removable.nextOf (h : Removable m s) (hb : pageSize ∣ b) :
    nextOf (listRemove m head s).1 b =
      if prevOf m s = some b then nextOf m s else Slab.nextOf m b := by
  rw [h.listRemove_eq]
  unfold Slab.nextOf prevOf
  rw [read_writeIf_of_ne h.next_page hb (.inr (by decide)), ptr_read_writeIf h.prev_page hb]

theorem Removable.prevOf (h : Removable m s) (hb : pageSize ∣ b) :
    prevOf (listRemove m head s).1 b =
      if Slab.nextOf m s = some b then prevOf m s else Slab.prevOf m b := by
  rw [h.listRemove_eq]
  unfold Slab.nextOf Slab.prevOf
  rw [ptr_read_writeIf h.next_page hb, read_writeIf_of_ne h.prev_page hb (.inr (by decide))]

theorem Removable.linkFrame (h : Removable m s) (head : Nat) :
    LinkFrame m (listRemove m head s).1 := by
  rw [h.listRemove_eq]
  exact (linkFrame_writeIf h.prev_page (.inl rfl)).trans
    (linkFrame_writeIf h.next_page (.inr rfl))

/-- The links of a slab in the middle of a list of pages make it removable. -/
theorem removable_of_dll (hd : Dll (nextOf m) (prevOf m) none (ptr head) (l₁ ++ s :: l₂))
    (hl : (l₁ ++ s :: l₂).Nodup) (hpg : ∀ b ∈ l₁ ++ s :: l₂, pageSize ∣ b ∧ b ≠ 0) :
    Removable m s := by
  obtain ⟨hn, hp⟩ := hd.links
  obtain ⟨hs, hs0⟩ := hpg s (by simp)
  rw [Option.or_none] at hp
  -- a link is null or another page of the list
  have link : ∀ {w : Nat} {o : Option Nat}, ptr w = o →
      (∀ b, o = some b → b ∈ l₁ ∨ b ∈ l₂) → pageSize ∣ w ∧ s ≠ w := by
    intro w o hw ho
    by_cases h0 : w = 0
    · subst h0; exact ⟨Nat.dvd_zero _, hs0⟩
    · rw [ptr_of_ne h0] at hw
      have hmem := ho w hw.symm
      refine ⟨(hpg w (by simp; tauto)).1, ?_⟩
      rintro rfl
      rw [nodup_append] at hl
      rcases hmem with h | h
      · exact hl.2.2 s h s (by simp) rfl
      · exact (nodup_cons.mp hl.2.1).1 h
  obtain ⟨h1, h2⟩ := link hp fun b hb => .inl (mem_of_getLast? hb)
  obtain ⟨h3, h4⟩ := link hn fun b hb => .inr (mem_of_mem_head? hb)
  exact ⟨hs, h1, h3, h2, h4⟩

/-- `list_remove` takes the slab out of its list. -/
theorem dll_listRemove (hd : Dll (nextOf m) (prevOf m) none (ptr head) (l₁ ++ s :: l₂))
    (hl : (l₁ ++ s :: l₂).Nodup) (hpg : ∀ b ∈ l₁ ++ s :: l₂, pageSize ∣ b ∧ b ≠ 0) :
    Dll (nextOf (listRemove m head s).1) (prevOf (listRemove m head s).1) none
      (ptr (listRemove m head s).2) (l₁ ++ l₂) := by
  have hr := removable_of_dll hd hl hpg
  have hs0 : s ≠ 0 := (hpg s (by simp)).2
  have hhead : ptr (listRemove m head s).2 =
      if ptr head = some s then nextOf m s else ptr head := by
    rw [hr.listRemove_eq]
    by_cases h : head = s
    · subst h; simp [ptr_of_ne hs0, nextOf]
    · have : ptr head ≠ some s := fun e => h (ptr_eq_some.mp e).1
      simp [h, this]
  have hal : ∀ b ∈ l₁ ++ l₂, pageSize ∣ b := fun b hb => (hpg b (by simp at hb ⊢; tauto)).1
  rw [hhead]
  exact hd.remove hl (fun q e => by cases e) (fun b hb => hr.nextOf (hal b hb))
    fun b hb => hr.prevOf (hal b hb)

/-- `list_remove` leaves the links of the slabs on other lists alone. -/
theorem links_listRemove (hd : Dll (nextOf m) (prevOf m) none (ptr head) (l₁ ++ s :: l₂))
    (hl : (l₁ ++ s :: l₂).Nodup) (hpg : ∀ b ∈ l₁ ++ s :: l₂, pageSize ∣ b ∧ b ≠ 0)
    (hb : pageSize ∣ b) (hbl : b ∉ l₁ ++ s :: l₂) :
    nextOf (listRemove m head s).1 b = nextOf m b ∧
      prevOf (listRemove m head s).1 b = prevOf m b := by
  have hr := removable_of_dll hd hl hpg
  obtain ⟨hn, hp⟩ := hd.links
  rw [Option.or_none] at hp
  simp only [mem_append, mem_cons, not_or] at hbl
  have hp' : prevOf m s ≠ some b := fun e => hbl.1 (mem_of_getLast? (hp ▸ e))
  have hn' : nextOf m s ≠ some b := fun e => hbl.2.2 (mem_of_mem_head? (hn ▸ e))
  exact ⟨by rw [hr.nextOf hb, if_neg hp'], by rw [hr.prevOf hb, if_neg hn']⟩

/-! What `list_add` does to the links, where the slab is not the old head. -/

theorem nextOf_listAdd (hs : pageSize ∣ s) (hh : pageSize ∣ head) (hb : pageSize ∣ b) :
    nextOf (listAdd m head s).1 b = if b = s then ptr head else nextOf m b := by
  unfold listAdd nextOf
  rw [read_writeIf_of_ne hh hb (.inr (by decide)), read_write_of_ne hs hb (.inr (by decide))]
  split
  next h => subst h; rw [read_write_same]
  next h => rw [read_write_of_ne hs hb (.inl h)]

theorem prevOf_listAdd (hs : pageSize ∣ s) (hh : pageSize ∣ head) (hb : pageSize ∣ b) :
    prevOf (listAdd m head s).1 b =
      if ptr head = some b then ptr s else if b = s then none else prevOf m b := by
  unfold listAdd prevOf
  rw [ptr_read_writeIf hh hb]
  refine if_congr Iff.rfl rfl ?_
  split
  next h => subst h; rw [read_write_same, ptr_zero]
  next h =>
      rw [read_write_of_ne hs hb (.inl h), read_write_of_ne hs hb (.inl h)]

theorem linkFrame_listAdd (hs : pageSize ∣ s) (hh : pageSize ∣ head) :
    LinkFrame m (listAdd m head s).1 :=
  ((linkFrame_write hs (.inl rfl)).trans (linkFrame_write hs (.inr rfl))).trans
    (linkFrame_writeIf hh (.inr rfl))

/-- The head of a list of pages is null or a page of the list. -/
theorem head_page (hd : Dll (nextOf m) (prevOf m) none (ptr head) l)
    (hpg : ∀ b ∈ l, pageSize ∣ b) : pageSize ∣ head := by
  by_cases h0 : head = 0
  · subst h0; exact Nat.dvd_zero _
  · have hm := hd.head_eq
    rw [ptr_of_ne h0] at hm
    exact hpg head (mem_of_mem_head? hm.symm)

/-- `list_add` puts the slab in front of the list. -/
theorem dll_listAdd (hd : Dll (nextOf m) (prevOf m) none (ptr head) l) (hl : l.Nodup)
    (hpg : ∀ b ∈ l, pageSize ∣ b) (hs : pageSize ∣ s) (hs0 : s ≠ 0) (hsl : s ∉ l) :
    Dll (nextOf (listAdd m head s).1) (prevOf (listAdd m head s).1) none
      (ptr (listAdd m head s).2) (s :: l) := by
  have hh := head_page hd hpg
  have hne : ptr head ≠ some s := fun e => hsl (by
    rw [hd.head_eq] at e
    exact mem_of_mem_head? e)
  show Dll _ _ none (ptr s) (s :: l)
  rw [ptr_of_ne hs0]
  have hbs : ∀ b ∈ l, b ≠ s := fun b hb e => hsl (e ▸ hb)
  refine hd.push hsl hl ?_ ?_ (fun b hb => ?_) fun b hb => ?_
  · rw [nextOf_listAdd hs hh hs, if_pos rfl]
  · rw [prevOf_listAdd hs hh hs, if_neg hne, if_pos rfl]
  · rw [nextOf_listAdd hs hh (hpg b hb), if_neg (hbs b hb)]
  · rw [prevOf_listAdd hs hh (hpg b hb), if_neg (hbs b hb), ptr_of_ne hs0]

/-- `list_add` leaves the links of the slabs on other lists alone. -/
theorem links_listAdd (hd : Dll (nextOf m) (prevOf m) none (ptr head) l)
    (hpg : ∀ b ∈ l, pageSize ∣ b) (hs : pageSize ∣ s) (hb : pageSize ∣ b) (hbs : b ≠ s)
    (hbl : b ∉ l) :
    nextOf (listAdd m head s).1 b = nextOf m b ∧ prevOf (listAdd m head s).1 b = prevOf m b := by
  have hh := head_page hd hpg
  have hne : ptr head ≠ some b := fun e => hbl (by
    rw [hd.head_eq] at e
    exact mem_of_mem_head? e)
  rw [nextOf_listAdd hs hh hb, prevOf_listAdd hs hh hb, if_neg hbs, if_neg hne, if_neg hbs]
  exact ⟨rfl, rfl⟩

end Lists

/-! ## Chunks -/

/-- Where the chunks of a page start, behind the header. -/
def dataOffset : Nat := 64

/-- How many chunks a page of a cache holds. -/
def chunksPer (i : CacheId) : Nat := (pageSize - dataOffset) / cacheSizes i

/-- `c` is one of the chunks of a page of cache `i`. -/
def IsChunk (i : CacheId) (pg c : Nat) : Prop :=
  ∃ k < chunksPer i, c = pg + dataOffset + k * cacheSizes i

section Chunk

variable {i : CacheId} {pg c d : Nat}

theorem cacheSizes_pos (i : CacheId) : 16 ≤ cacheSizes i := by revert i; decide

theorem cacheSizes_dvd (i : CacheId) : 16 ∣ cacheSizes i := by revert i; decide

theorem chunksPer_pos (i : CacheId) : 0 < chunksPer i := by revert i; decide

theorem chunks_fit (i : CacheId) : dataOffset + chunksPer i * cacheSizes i ≤ pageSize := by
  revert i; decide

theorem IsChunk.le (h : IsChunk i pg c) : pg + dataOffset ≤ c := by
  obtain ⟨k, -, rfl⟩ := h
  exact Nat.le_add_right ..

theorem IsChunk.end_le (h : IsChunk i pg c) : c + cacheSizes i ≤ pg + pageSize := by
  obtain ⟨k, hk, rfl⟩ := h
  have h1 := Nat.mul_le_mul_right (cacheSizes i) (Nat.succ_le_of_lt hk)
  rw [Nat.succ_mul] at h1
  have h2 := chunks_fit i
  omega

theorem IsChunk.lt (h : IsChunk i pg c) : c < pg + pageSize := by
  have h1 := h.end_le
  have h2 := cacheSizes_pos i
  omega

theorem IsChunk.ne_zero (h : IsChunk i pg c) : c ≠ 0 := by
  have h1 := h.le
  unfold dataOffset at h1
  omega

theorem IsChunk.pageBase_eq (h : IsChunk i pg c) (hpg : pageSize ∣ pg) : pageBase c = pg := by
  obtain ⟨q, rfl⟩ := hpg
  have h1 := h.le
  have h2 := h.lt
  unfold pageBase
  unfold pageSize dataOffset at *
  omega

theorem IsChunk.mod_ge (h : IsChunk i pg c) (hpg : pageSize ∣ pg) : 56 ≤ c % pageSize := by
  obtain ⟨q, rfl⟩ := hpg
  have h1 := h.le
  have h2 := h.lt
  unfold pageSize dataOffset at *
  omega

theorem IsChunk.aligned (h : IsChunk i pg c) (hpg : pageSize ∣ pg) : c % 16 = 0 := by
  obtain ⟨k, -, rfl⟩ := h
  obtain ⟨q, rfl⟩ := hpg
  obtain ⟨n, hn⟩ := cacheSizes_dvd i
  rw [hn, Nat.mul_left_comm]
  unfold pageSize dataOffset
  omega

/-- Two chunks of one page do not overlap. -/
theorem IsChunk.disjoint (hc : IsChunk i pg c) (hd : IsChunk i pg d) (h : c ≠ d) :
    c + cacheSizes i ≤ d ∨ d + cacheSizes i ≤ c := by
  obtain ⟨k, -, rfl⟩ := hc
  obtain ⟨n, -, rfl⟩ := hd
  have hkn : k ≠ n := fun e => h (by rw [e])
  rcases Nat.lt_or_gt_of_ne hkn with hlt | hlt
  · have := Nat.mul_le_mul_right (cacheSizes i) (Nat.succ_le_of_lt hlt)
    rw [Nat.succ_mul] at this
    omega
  · have := Nat.mul_le_mul_right (cacheSizes i) (Nat.succ_le_of_lt hlt)
    rw [Nat.succ_mul] at this
    omega

end Chunk

/-! ## Pages -/

/-- The free list of the page at `pg` is `free`. -/
structure FreeOk (m : Words) (free : List Nat) (i : CacheId) (pg : Nat) : Prop where
  page : pageSize ∣ pg
  chain : Chain (fun c => ptr (chunkNext m c)) (ptr (read m pg .freeList)) free
  count_eq : read m pg .freeChunks = free.length
  nodup : free.Nodup
  chunk : ∀ c ∈ free, IsChunk i pg c

/-- The page at `pg` is a slab of cache `i` whose free list is `free`. -/
structure PageOk (m : Words) (free : List Nat) (i : CacheId) (pg : Nat) : Prop
    extends FreeOk m free i pg where
  ne_zero : pg ≠ 0
  magic_eq : magic m pg = slabMagic
  cache_eq : read m pg .cache = i
  total_eq : read m pg .totalChunks = chunksPer i

section Page

variable {m m' : Words} {free : List Nat} {i j : CacheId} {pg c : Nat}

theorem FreeOk.congr (h : FreeOk m free i pg)
    (hr : ∀ f, f = .freeList ∨ f = .freeChunks → read m' pg f = read m pg f)
    (hc : ∀ c ∈ free, m' c = m c) : FreeOk m' free i pg where
  page := h.page
  chain := by
    rw [hr .freeList (.inl rfl)]
    exact h.chain.congr fun c hm => by rw [chunkNext, chunkNext, hc c hm]
  count_eq := (hr .freeChunks (.inr rfl)).trans h.count_eq
  nodup := h.nodup
  chunk := h.chunk

/-- The header fields that stay when a chunk is pushed or popped. -/
theorem PageOk.of_free {free' : List Nat} (h : PageOk m free i pg) (h' : FreeOk m' free' i pg)
    (hr : ∀ f, f = .magic ∨ f = .cache ∨ f = .totalChunks → read m' pg f = read m pg f) :
    PageOk m' free' i pg where
  toFreeOk := h'
  ne_zero := h.ne_zero
  magic_eq := by
    unfold magic
    rw [hr .magic (.inl rfl)]
    exact h.magic_eq
  cache_eq := (hr .cache (.inr (.inl rfl))).trans h.cache_eq
  total_eq := (hr .totalChunks (.inr (.inr rfl))).trans h.total_eq

/-- A page depends on its header, the links apart, and on its free chunks. -/
theorem PageOk.congr (h : PageOk m free i pg)
    (hr : ∀ f, f ≠ .next → f ≠ .prev → read m' pg f = read m pg f)
    (hc : ∀ c ∈ free, m' c = m c) : PageOk m' free i pg := by
  refine h.of_free (h.toFreeOk.congr ?_ hc) ?_
  · rintro f (rfl | rfl)
    · exact hr _ (by decide) (by decide)
    · exact hr _ (by decide) (by decide)
  · rintro f (rfl | rfl | rfl)
    · exact hr _ (by decide) (by decide)
    · exact hr _ (by decide) (by decide)
    · exact hr _ (by decide) (by decide)

theorem PageOk.linkFrame (h : PageOk m free i pg) (hf : LinkFrame m m') : PageOk m' free i pg := by
  refine h.congr (fun f hn hp => hf.read_eq h.page hn hp) fun c hc => ?_
  have hmod := (h.chunk c hc).mod_ge h.page
  refine hf c ?_ ?_
  · have : Field.next.offset = 8 := rfl
    omega
  · have : Field.prev.offset = 16 := rfl
    omega

theorem FreeOk.freeList_eq {cs : List Nat} (h : FreeOk m (c :: cs) i pg) :
    read m pg .freeList = c := (ptr_eq_some.mp h.chain.1).1

theorem read_popChunk {f : Field} (hp : pageSize ∣ pg) (h1 : f ≠ .freeList)
    (h2 : f ≠ .freeChunks) : read (popChunk m pg) pg f = read m pg f := by
  rw [popChunk, read_write_field hp h2, read_write_field hp h1]

theorem read_pushChunk {f : Field} (hp : pageSize ∣ pg) (hc : 56 ≤ c % pageSize)
    (h1 : f ≠ .freeList) (h2 : f ≠ .freeChunks) :
    read (pushChunk m pg c) pg f = read m pg f := by
  rw [pushChunk, read_write_field hp h2, read_write_field hp h1, read_setChunkNext hp hc]

theorem FreeOk.pop {cs : List Nat} (h : FreeOk m (c :: cs) i pg) :
    FreeOk (popChunk m pg) cs i pg := by
  have hp := h.page
  have hlist : read (popChunk m pg) pg .freeList = chunkNext m c := by
    simp [popChunk, hp, h.freeList_eq]
  refine ⟨hp, ?_, ?_, (nodup_cons.mp h.nodup).2,
    fun d hd => h.chunk d (mem_cons_of_mem _ hd)⟩
  · rw [hlist]
    refine h.chain.2.congr fun d hd => ?_
    have hd' := (h.chunk d (mem_cons_of_mem _ hd)).mod_ge hp
    rw [chunkNext, popChunk, write_chunk hp hd', write_chunk hp hd', chunkNext]
  · simp [popChunk, hp, h.count_eq]

theorem FreeOk.push (h : FreeOk m free i pg) (hc : IsChunk i pg c) (hf : c ∉ free) :
    FreeOk (pushChunk m pg c) (c :: free) i pg := by
  have hp := h.page
  have hcm := hc.mod_ge hp
  have hmem : ∀ d, 56 ≤ d % pageSize →
      pushChunk m pg c d = setChunkNext m c (read m pg .freeList) d :=
    fun d hd => (write_chunk hp hd).trans (write_chunk hp hd)
  refine ⟨hp, ⟨?_, ?_⟩, ?_, nodup_cons.mpr ⟨hf, h.nodup⟩, ?_⟩
  · have hl : read (pushChunk m pg c) pg .freeList = c := by simp [pushChunk, hp]
    rw [hl, ptr_of_ne hc.ne_zero]
  · have hself : chunkNext (pushChunk m pg c) c = read m pg .freeList := by
      rw [chunkNext, hmem c hcm, setChunkNext, update_self]
    show Lib.Chain _ (ptr (chunkNext (pushChunk m pg c) c)) free
    rw [hself]
    refine h.chain.congr fun d hd => ?_
    have hne : d ≠ c := fun e => hf (e ▸ hd)
    rw [chunkNext, hmem d ((h.chunk d hd).mod_ge hp), setChunkNext, update_of_ne hne,
      chunkNext]
  · simp only [pushChunk, read_write_same, length_cons, ne_eq, reduceCtorEq,
      not_false_eq_true, read_write_field hp, read_setChunkNext hp hcm, h.count_eq]
  · intro d hd
    rcases mem_cons.mp hd with rfl | hd
    · exact hc
    · exact h.chunk d hd

theorem PageOk.pop {cs : List Nat} (h : PageOk m (c :: cs) i pg) :
    PageOk (popChunk m pg) cs i pg := by
  refine h.of_free h.toFreeOk.pop ?_
  rintro f (rfl | rfl | rfl) <;> exact read_popChunk h.page (by decide) (by decide)

theorem PageOk.push (h : PageOk m free i pg) (hc : IsChunk i pg c) (hf : c ∉ free) :
    PageOk (pushChunk m pg c) (c :: free) i pg := by
  refine h.of_free (h.toFreeOk.push hc hf) ?_
  rintro f (rfl | rfl | rfl) <;>
    exact read_pushChunk h.page (hc.mod_ge h.page) (by decide) (by decide)

/-! The chunk operations of one page leave the other pages and all list links alone. -/

theorem PageOk.pop_other {b : Nat} (h : PageOk m free j b) (hp : pageSize ∣ pg) (hne : b ≠ pg) :
    PageOk (popChunk m pg) free j b := by
  refine h.congr (fun f _ _ => ?_) fun d hd => ?_
  · rw [popChunk, read_write_of_ne hp h.page (.inl hne), read_write_of_ne hp h.page (.inl hne)]
  · have hd' := (h.chunk d hd).mod_ge h.page
    exact (write_chunk hp hd').trans (write_chunk hp hd')

theorem PageOk.push_other {b : Nat} (h : PageOk m free j b) (hp : pageSize ∣ pg) (hne : b ≠ pg)
    (hc : IsChunk i pg c) : PageOk (pushChunk m pg c) free j b := by
  have hcm := hc.mod_ge hp
  refine h.congr (fun f _ _ => ?_) fun d hd => ?_
  · rw [pushChunk, read_write_of_ne hp h.page (.inl hne),
      read_write_of_ne hp h.page (.inl hne), read_setChunkNext h.page hcm]
  · have hd' := (h.chunk d hd).mod_ge h.page
    have hdc : d ≠ c := fun e => hne (by
      rw [← (h.chunk d hd).pageBase_eq h.page, e, hc.pageBase_eq hp])
    rw [pushChunk, write_chunk hp hd', write_chunk hp hd', setChunkNext,
      update_of_ne hdc]

theorem links_popChunk {b : Nat} (hp : pageSize ∣ pg) (hb : pageSize ∣ b) :
    nextOf (popChunk m pg) b = nextOf m b ∧ prevOf (popChunk m pg) b = prevOf m b := by
  simp only [nextOf, prevOf, popChunk]
  constructor
  · rw [read_write_of_ne hp hb (.inr (by decide)), read_write_of_ne hp hb (.inr (by decide))]
  · rw [read_write_of_ne hp hb (.inr (by decide)), read_write_of_ne hp hb (.inr (by decide))]

theorem links_pushChunk {b : Nat} (hp : pageSize ∣ pg) (hb : pageSize ∣ b)
    (hc : 56 ≤ c % pageSize) :
    nextOf (pushChunk m pg c) b = nextOf m b ∧ prevOf (pushChunk m pg c) b = prevOf m b := by
  simp only [nextOf, prevOf, pushChunk]
  constructor
  · rw [read_write_of_ne hp hb (.inr (by decide)), read_write_of_ne hp hb (.inr (by decide)),
      read_setChunkNext hb hc]
  · rw [read_write_of_ne hp hb (.inr (by decide)), read_write_of_ne hp hb (.inr (by decide)),
      read_setChunkNext hb hc]

end Page

/-! ## The view of a state -/

/-- Which pages are on which list, and which chunks of a page are on its free list. -/
structure View where
  lists : CacheId → SlabList → List Nat
  free : Nat → List Nat

def View.setList (V : View) (i : CacheId) (l : SlabList) (L : List Nat) : View :=
  { V with lists := fun j k => if j = i ∧ k = l then L else V.lists j k }

def View.setFree (V : View) (pg : Nat) (free : List Nat) : View :=
  { V with free := update V.free pg free }

@[simp] theorem View.setList_same (V : View) (i : CacheId) (l : SlabList) (L : List Nat) :
    (V.setList i l L).lists i l = L := by simp [View.setList]

theorem View.setList_ne (V : View) {i j : CacheId} {l k : SlabList} (L : List Nat)
    (h : ¬(j = i ∧ k = l)) : (V.setList i l L).lists j k = V.lists j k := if_neg h

@[simp] theorem View.setList_free (V : View) (i : CacheId) (l : SlabList) (L : List Nat) :
    (V.setList i l L).free = V.free := rfl

@[simp] theorem View.setFree_lists (V : View) (pg : Nat) (free : List Nat) :
    (V.setFree pg free).lists = V.lists := rfl

@[simp] theorem View.setFree_same (V : View) (pg : Nat) (free : List Nat) :
    (V.setFree pg free).free pg = free := update_self ..

theorem View.setFree_ne (V : View) {pg b : Nat} (free : List Nat) (h : b ≠ pg) :
    (V.setFree pg free).free b = V.free b := update_of_ne h ..

/-- Memory and the list heads spell out the view. -/
structure Core (st : State) (V : View) : Prop where
  object_size : ∀ i, (st.caches i).objectSize = cacheSizes i
  dll : ∀ i l,
    Dll (nextOf st.mem) (prevOf st.mem) none (ptr ((st.caches i).head l)) (V.lists i l)
  nodup : ∀ i l, (V.lists i l).Nodup
  unique : ∀ {i j l k pg}, pg ∈ V.lists i l → pg ∈ V.lists j k → i = j ∧ l = k
  page : ∀ {i l pg}, pg ∈ V.lists i l → PageOk st.mem (V.free pg) i pg

section Core

variable {st : State} {V : View} {i : CacheId} {l k : SlabList} {s c : Nat}

theorem Core.isPage (h : Core st V) {b : Nat} (hb : b ∈ V.lists i l) : pageSize ∣ b ∧ b ≠ 0 :=
  ⟨(h.page hb).page, (h.page hb).ne_zero⟩

/-- One list of one cache is replaced.  The other lists keep their links, and a new slab was on no
list. -/
theorem Core.setHead (h : Core st V) {r : Words × Nat} {L : List Nat}
    (hd : Dll (nextOf r.1) (prevOf r.1) none (ptr r.2) L) (hL : L.Nodup)
    (hframe : LinkFrame st.mem r.1)
    (hother : ∀ j k, ¬(j = i ∧ k = l) → ∀ b ∈ V.lists j k,
      nextOf r.1 b = nextOf st.mem b ∧ prevOf r.1 b = prevOf st.mem b)
    (hnew : ∀ b ∈ L, b ∈ V.lists i l ∨
      PageOk st.mem (V.free b) i b ∧ ∀ j k, b ∉ V.lists j k) :
    Core (st.setHead i l r) (V.setList i l L) := by
  have hsame := V.setList_same (i := i) (l := l) L
  have hne : ∀ {j k}, ¬(j = i ∧ k = l) → (V.setList i l L).lists j k = V.lists j k :=
    fun hjk => V.setList_ne L hjk
  -- a slab of the new list is on no other list
  have hno : ∀ {j k b}, ¬(j = i ∧ k = l) → b ∈ L → b ∉ V.lists j k := by
    intro j k b hjk hb hb'
    have hold : ∀ {j' k'}, b ∈ V.lists j' k' → j = j' ∧ k = k' := h.unique hb'
    grind
  refine ⟨fun j => ?_, fun j k => ?_, fun j k => ?_, fun {j₁ j₂ k₁ k₂ b} h1 h2 => ?_,
    fun {j k b} hb => ?_⟩
  · by_cases hj : j = i
    · subst hj; simp [State.setHead, h.object_size]
    · simp [State.setHead, hj, h.object_size]
  · by_cases hjk : j = i ∧ k = l
    · obtain ⟨rfl, rfl⟩ := hjk
      simpa [State.setHead] using hd
    · have hhead : ((st.setHead i l r).caches j).head k = (st.caches j).head k := by
        by_cases hj : j = i
        · subst hj
          have hk : k ≠ l := fun e => hjk ⟨rfl, e⟩
          simp [State.setHead, hk]
        · simp [State.setHead, hj]
      rw [hne hjk, hhead]
      exact (h.dll j k).congr (fun b hb => (hother j k hjk b hb).1)
        fun b hb => (hother j k hjk b hb).2
  · have hold := h.nodup j k
    grind
  · have hold := @h.unique
    grind
  · have hpage : PageOk st.mem (V.free b) j b := by
      have hold := @h.page
      grind
    exact hpage.linkFrame hframe

theorem Core.listRemove {l₁ l₂ : List Nat} (h : Core st V) (hs : V.lists i l = l₁ ++ s :: l₂) :
    Core (st.listRemove i l s) (V.setList i l (l₁ ++ l₂)) ∧
      LinkFrame st.mem (st.listRemove i l s).mem := by
  have hd := h.dll i l
  have hl := h.nodup i l
  have hpg : ∀ b ∈ V.lists i l, pageSize ∣ b ∧ b ≠ 0 := fun b hb => h.isPage hb
  rw [hs] at hd hl hpg
  have hsub : (l₁ ++ l₂).Sublist (l₁ ++ s :: l₂) :=
    (List.Sublist.refl l₁).append (sublist_cons_self s l₂)
  have hframe := (removable_of_dll hd hl hpg).linkFrame ((st.caches i).head l)
  refine ⟨h.setHead (dll_listRemove hd hl hpg) (hl.sublist hsub) hframe ?_ ?_, hframe⟩
  · intro j k hjk b hb
    refine links_listRemove hd hl hpg (h.isPage hb).1 fun hb' => hjk ?_
    rw [← hs] at hb'
    exact h.unique hb hb'
  · exact fun b hb => .inl (hs ▸ hsub.subset hb)

theorem Core.listAdd (h : Core st V) (hpg : PageOk st.mem (V.free s) i s)
    (hnew : ∀ j k, s ∉ V.lists j k) :
    Core (st.listAdd i l s) (V.setList i l (s :: V.lists i l)) ∧
      LinkFrame st.mem (st.listAdd i l s).mem := by
  have hd := h.dll i l
  have hal : ∀ b ∈ V.lists i l, pageSize ∣ b := fun b hb => (h.isPage hb).1
  have hframe := linkFrame_listAdd (m := st.mem) hpg.page (head_page hd hal)
  refine ⟨h.setHead (dll_listAdd hd (h.nodup i l) hal hpg.page hpg.ne_zero (hnew i l))
    (nodup_cons.mpr ⟨hnew i l, h.nodup i l⟩) hframe ?_ ?_, hframe⟩
  · intro j k hjk b hb
    refine links_listAdd hd hal hpg.page (h.isPage hb).1 (fun e => hnew j k (e ▸ hb)) fun hb' => ?_
    exact hjk (h.unique hb hb')
  · intro b hb
    rcases mem_cons.mp hb with rfl | hb
    · exact .inr ⟨hpg, hnew⟩
    · exact .inl hb

/-- The chunk operations: one page gets another free list, with the links in place. -/
theorem Core.setFree (h : Core st V) {m' : Words} {free : List Nat} (hs : s ∈ V.lists i l)
    (hpg : PageOk m' free i s)
    (hlinks : ∀ b, pageSize ∣ b → nextOf m' b = nextOf st.mem b ∧ prevOf m' b = prevOf st.mem b)
    (hother : ∀ {j b}, b ≠ s → PageOk st.mem (V.free b) j b → PageOk m' (V.free b) j b) :
    Core { st with mem := m' } (V.setFree s free) := by
  refine ⟨h.object_size, fun j k => ?_, h.nodup, h.unique, fun {j k b} hb => ?_⟩
  · exact (h.dll j k).congr (fun b hb => (hlinks b (h.isPage hb).1).1)
      fun b hb => (hlinks b (h.isPage hb).1).2
  · by_cases hbs : b = s
    · subst hbs
      obtain ⟨rfl, -⟩ := h.unique hb hs
      rwa [V.setFree_same]
    · rw [V.setFree_ne free hbs]
      exact hother hbs (h.page hb)

theorem Core.pop (h : Core st V) {cs : List Nat} (hs : s ∈ V.lists i l)
    (hfree : V.free s = c :: cs) :
    Core { st with mem := popChunk st.mem s } (V.setFree s cs) := by
  have hpg := h.page hs
  rw [hfree] at hpg
  exact h.setFree hs hpg.pop (fun b hb => links_popChunk hpg.page hb)
    fun hne hb => hb.pop_other hpg.page hne

theorem Core.push (h : Core st V) (hs : s ∈ V.lists i l) (hc : IsChunk i s c)
    (hfree : c ∉ V.free s) :
    Core { st with mem := pushChunk st.mem s c } (V.setFree s (c :: V.free s)) := by
  have hpg := h.page hs
  exact h.setFree hs (hpg.push hc hfree)
    (fun b hb => links_pushChunk hpg.page hb (hc.mod_ge hpg.page))
    fun hne hb => hb.push_other hpg.page hne hc

end Core

end Aeryk.Slab
