import Aeryk.Libc.Malloc

/-!
# Runs of the heap

The loop of `malloc` goes around the ring once.  It comes back to `free_list` if no block is large
enough, asks `sbrk`, and finds a block on the way around after that, since `free` has put the new
units into the ring.  So there is one call of `sbrk` at most.
-/

namespace Aeryk.Libc

open List Function Lib

/-! ## The loop of `malloc` -/

section

variable {base : Nat} {h h' : Heap} {nodes : List Nat} {others cells : Set Nat}
  {p units : Nat} {answers : List (Option Nat)}

/-- What `malloc` returns for a block that is large enough. -/
def found (h : Heap) (units prev cur : Nat) (answers : List (Option Nat)) : Returned :=
  ⟨(take h units prev cur).1, some ((take h units prev cur).2 + 1), answers⟩

theorem mallocLoop_fits {n prev cur : Nat} (hfit : h.size cur ≥ units) :
    mallocLoop units (n + 1) answers h prev cur = some (found h units prev cur answers) :=
  if_pos hfit

theorem mallocLoop_goes {n prev cur : Nat} (hfit : ¬h.size cur ≥ units)
    (hne : h.freeList ≠ some cur) : mallocLoop units (n + 1) answers h prev cur =
      mallocLoop units n answers h cur (h.next cur) :=
  (if_neg hfit).trans (if_neg hne)

/-- Along a path to `free_list`, the loop takes the first block that is large enough, or it
arrives. -/
theorem mallocLoop_along (units : Nat) (answers : List (Option Nat)) {n prev cur b : Nat}
    {l : List Nat} (hpath : Path h.next cur (l ++ [p]) b) (hfree : h.freeList = some p) (hp : p ∉ l)
    (hprev : h.next prev = cur) (hlen : l.length < n) :
    (∃ q, (q = prev ∨ q ∈ l) ∧ units ≤ h.size (h.next q) ∧
        mallocLoop units n answers h prev cur = some (found h units q (h.next q) answers)) ∨
      ((∀ c ∈ l ++ [p], h.size c < units) ∧ ∃ m q, n ≤ m + 1 + l.length ∧
        mallocLoop units n answers h prev cur = mallocLoop units (m + 1) answers h q p) := by
  induction l generalizing n prev cur with
  | nil =>
    obtain ⟨m, rfl⟩ : ∃ m, n = m + 1 := ⟨n - 1, by rw [length_nil] at hlen; omega⟩
    obtain rfl : cur = p := hpath.1
    by_cases hfit : h.size cur ≥ units
    · left
      refine ⟨prev, .inl rfl, by rw [hprev]; exact hfit, ?_⟩
      rw [mallocLoop_fits hfit, hprev]
    · right
      refine ⟨fun c hc => ?_, m, prev, Nat.le_refl _, rfl⟩
      rw [mem_singleton.mp hc]
      omega
  | cons c l ih =>
    obtain ⟨m, rfl⟩ : ∃ m, n = m + 1 := ⟨n - 1, by rw [length_cons] at hlen; omega⟩
    obtain ⟨rfl, hrest⟩ := hpath
    have hne : h.freeList ≠ some cur := by
      rw [hfree]
      rintro ⟨⟩
      exact hp mem_cons_self
    by_cases hfit : h.size cur ≥ units
    · left
      refine ⟨prev, .inl rfl, by rw [hprev]; exact hfit, ?_⟩
      rw [mallocLoop_fits hfit, hprev]
    · rw [mallocLoop_goes hfit hne]
      rcases ih hrest (fun hmem => hp (mem_cons_of_mem _ hmem)) rfl
        (Nat.lt_of_succ_lt_succ hlen) with ⟨q, hq, hfound⟩ | ⟨hsmall, k, q, hk, heq⟩
      · refine .inl ⟨q, .inr ?_, hfound⟩
        rcases hq with rfl | hq
        · exact mem_cons_self
        · exact mem_cons_of_mem _ hq
      · refine .inr ⟨fun d hd => ?_, k, q, by rw [length_cons]; omega, heq⟩
        rcases mem_cons.mp hd with rfl | hd
        · omega
        · exact hsmall d hd

/-- Starting behind `free_list`, the loop takes a block, or no block is large enough and it
arrives. -/
theorem Blocks.search (hb : Blocks base h nodes others cells) (answers : List (Option Nat))
    {n : Nat} (hfree : h.freeList = some p) (hunits : 0 < units) (hlen : nodes.length ≤ n) :
    (∃ l₁ q c l₂, nodes = l₁ ++ q :: c :: l₂ ∧ units ≤ h.size c ∧
        mallocLoop units n answers h p (h.next p) = some (found h units q c answers)) ∨
      ((∀ c ∈ nodes, h.size c < units) ∧ ∃ m q, n ≤ m + nodes.length ∧
        mallocLoop units n answers h p (h.next p) = mallocLoop units (m + 1) answers h q p) := by
  obtain ⟨p', hp, hfree'⟩ := hb.start
  obtain rfl : p = p' := Option.some.inj (hfree.symm.trans hfree')
  obtain ⟨l₁, l₂, rfl⟩ := append_of_mem hp
  have hpath := hb.ring.rotate
  have hnodup : (l₁ ++ p :: l₂).Nodup := hb.sorted.imp fun hlt => Nat.ne_of_lt hlt
  have hnot : p ∉ l₂ ++ l₁ := by
    have := (nodup_middle.mp hnodup).notMem
    simpa [or_comm] using this
  have haround : Path h.next (h.next p) ((l₂ ++ l₁) ++ [p]) (h.next p) :=
    path_append.mpr ⟨p, hpath.2, rfl, rfl⟩
  rw [length_append, length_cons] at hlen ⊢
  rcases mallocLoop_along units answers haround hfree hnot rfl
    (by rw [length_append]; omega : (l₂ ++ l₁).length < n) with
    ⟨q, hq, hfit, heq⟩ | ⟨hsmall, m, q, hm, heq⟩
  · left
    have hmem : q ∈ l₁ ++ p :: l₂ := by
      rcases hq with rfl | hq
      · simp
      · rcases mem_append.mp hq with hq | hq
        · simp [hq]
        · simp [hq]
    obtain ⟨k₁, k₂, hk⟩ := append_of_mem hmem
    rw [hk] at hb
    have hnext := hb.next_eq
    cases k₂ with
    | nil =>
      rw [hnext, headD_nil, hb.sentinel] at hfit
      omega
    | cons c k₂ =>
      rw [headD_cons] at hnext
      rw [hnext] at hfit heq
      exact ⟨k₁, q, c, k₂, hk, hfit, heq⟩
  · right
    rw [length_append] at hm
    refine ⟨fun c hc => hsmall c ?_, m, q, by omega, heq⟩
    simp only [mem_append, mem_cons, not_mem_nil, or_false] at hc ⊢
    tauto

/-- The new units are free. -/
theorem Blocks.growHeap {start : Nat} (hb : Blocks base h nodes others cells)
    (hnew : ∀ u ∈ cells, u < start) (hbase : base < start)
    (hroom : start + growUnits units < 2 ^ 60) :
    ∃ h' nodes' p, growHeap h units (some start) = some (h', some p) ∧
      Blocks base h' nodes' others
        (cells ∪ {u | start ≤ u ∧ u < start + growUnits units}) ∧
      h'.freeList = some p ∧ (∀ a ∈ others, h'.size a = h.size a) ∧ h'.bytes = h.bytes ∧
      ∃ c ∈ nodes', units ≤ h'.size c := by
  have hpos : 0 < growUnits units := by
    unfold growUnits
    split <;> omega
  have hle : units ≤ growUnits units := by
    unfold growUnits
    split <;> omega
  have hsize : ∀ a, a ∈ nodes ∧ a ≠ base ∨ a ∈ others → a ≠ start := fun a ha =>
    Nat.ne_of_lt (hnew a (hb.tiles.start_mem ha))
  have hnode : ∀ a ∈ nodes, a ≠ start := by
    intro a ha
    by_cases hab : a = base
    · rw [hab]
      exact Nat.ne_of_lt hbase
    · exact hsize a (.inl ⟨ha, hab⟩)
  have hgrown : Blocks base
      { h with size := update h.size start (growUnits units) } nodes
      (insert start others) (cells ∪ {u | start ≤ u ∧ u < start + growUnits units}) := by
    refine ⟨hb.ring, hb.sorted, hb.start, ?_, ?_, ?_, ?_, ?_⟩
    · exact (update_of_ne (Nat.ne_of_lt hbase) _ _).trans hb.sentinel
    · rw [Set.union_insert]
      exact hb.tiles.add hpos hnew (update_self _ _ _) fun a ha =>
        update_of_ne (hsize a ha) _ _
    · rintro a ha (rfl | hmem)
      · exact hnode a ha rfl
      · exact hb.used a ha hmem
    · intro a ha b hb' hab
      dsimp only
      rw [update_of_ne (hnode a ha)]
      exact hb.merged a ha b hb' hab
    · rintro u (hu | ⟨hu₁, hu₂⟩)
      · exact hb.room u hu
      · omega
  obtain ⟨h', nodes', heq, hb', hsame, hbytes, c, hc, hcle⟩ :=
    hgrown.freeBlock (.inl rfl : start ∈ insert start others)
  have hothers : insert start others \ {start} = others := by
    rw [Set.insert_sdiff_self_of_notMem]
    exact fun hmem => hsize start (.inr hmem) rfl
  rw [hothers] at hb'
  obtain ⟨p, -, hp⟩ := hb'.start
  refine ⟨h', nodes', p, ?_, hb', hp, fun a ha => ?_, hbytes, c, hc, ?_⟩
  · unfold Libc.growHeap Libc.free
    dsimp only
    rw [Nat.add_sub_cancel, heq, ← hp]
  · have hne := hsize a (.inr ha)
    exact (hsame a (.inr ha) hne).trans (update_of_ne hne _ _)
  · dsimp only at hcle
    rw [update_self] at hcle
    exact Nat.le_trans hle hcle

/-- `sbrk` has failed, or has returned units above all others and above the sentinel. -/
def FreshUnits (base : Nat) (cells : Set Nat) (n : Nat) (raw : Option Nat) : Prop :=
  ∀ start, raw = some start → base < start ∧ (∀ u ∈ cells, u < start) ∧ start + n < 2 ^ 60

def unitsOf (n : Nat) : Option Nat → Set Nat
  | none => ∅
  | some start => {u | start ≤ u ∧ u < start + n}

theorem Took.of_grown {block : Nat} (ht : Took base units h' h block others cells) {h₀ : Heap}
    (hsame : ∀ a ∈ others, h'.size a = h₀.size a) (hbytes : h'.bytes = h₀.bytes) :
    Took base units h₀ h block others cells :=
  ⟨ht.blocks, ht.size, ht.fresh, fun a ha => (ht.same a ha).trans (hsame a ha),
    ht.bytes.trans hbytes⟩

/-- The loop of `malloc` takes a block without asking for more units, or asks once. -/
theorem Blocks.mallocLoop (hb : Blocks base h nodes others cells) (hfree : h.freeList = some p)
    (hunits : 0 < units) {raw : Option Nat} (hraw : FreshUnits base cells (growUnits units) raw) :
    (∃ h' block, mallocLoop units fuel [raw] h p (h.next p) = some ⟨h', some (block + 1), [raw]⟩ ∧
        Took base units h h' block others cells) ∨
      (raw = none ∧ mallocLoop units fuel [raw] h p (h.next p) = some ⟨h, none, []⟩) ∨
      ∃ h' block, raw ≠ none ∧
        mallocLoop units fuel [raw] h p (h.next p) = some ⟨h', some (block + 1), []⟩ ∧
        Took base units h h' block others (cells ∪ unitsOf (growUnits units) raw) := by
  have hlen := hb.length_le
  rcases hb.search [raw] hfree hunits (by unfold fuel; omega : nodes.length ≤ fuel) with
    ⟨l₁, q, c, l₂, rfl, hfit, heq⟩ | ⟨hsmall, m, q, hm, heq⟩
  · exact .inl ⟨_, _, heq, hb.take hunits hfit⟩
  right
  obtain ⟨p', hp, hfree'⟩ := hb.start
  obtain rfl : p = p' := Option.some.inj (hfree.symm.trans hfree')
  have hfit : ¬h.size p ≥ units := Nat.not_le.mpr (hsmall p hp)
  rw [heq]
  cases raw with
  | none => exact .inl ⟨rfl, (if_neg hfit).trans (if_pos hfree)⟩
  | some start =>
    right
    obtain ⟨hbase, hnew, hroom⟩ := hraw start rfl
    obtain ⟨h₁, nodes₁, p₁, hgrow, hb₁, hfree₁, hsame, hbytes, c, hc, hcle⟩ :=
      hb.growHeap hnew hbase hroom
    have hstep : Libc.mallocLoop units (m + 1) [some start] h q p =
        Libc.mallocLoop units m [] h₁ p₁ (h₁.next p₁) := by
      refine (if_neg hfit).trans ((if_pos hfree).trans ?_)
      dsimp only
      rw [hgrow]
    have hlen₁ := hb₁.length_le
    rw [hstep]
    rcases hb₁.search [] hfree₁ hunits (by unfold fuel at hm; omega : nodes₁.length ≤ m) with
      ⟨l₁, q, c, l₂, rfl, hfit, heq⟩ | ⟨hsmall, -⟩
    · exact ⟨_, _, nofun, heq, (hb₁.take hunits hfit).of_grown hsame hbytes⟩
    · exact absurd (hsmall c hc) (Nat.not_lt.mpr hcle)

end

/-! ## Runs -/

/-- The heap, what was asked for with each block in use, and the regions that `sbrk` returned. -/
structure Sys where
  heap : Heap
  live : Nat → Option Nat
  regions : List (Nat × Nat)

def Sys.cells (s : Sys) : Set Nat := {u | ∃ r ∈ s.regions, r.1 ≤ u ∧ u < r.1 + r.2}

def Sys.used (s : Sys) : Set Nat := {a | s.live a ≠ none}

/-- The calls of a program, with the answer of `sbrk` if it is asked. -/
inductive Op where
  | malloc (size : Nat) (raw : Option Nat)
  | calloc (nmemb size : Nat) (raw : Option Nat)
  | free (ptr : Option Nat)

/-- After a call that has returned: the block is in use, and an answer was used up. -/
def Sys.returned (s : Sys) (size : Nat) (raw : Option Nat) (r : Returned) : Sys where
  heap := r.heap
  live := match r.ptr with
    | none => s.live
    | some ptr => update s.live (ptr - 1) (some size)
  regions := match r.answers, raw with
    | [], some start => (start, increment (unitsFor size) / 16) :: s.regions
    | _, _ => s.regions

def step (base : Nat) (s : Sys) : Op → Option Sys
  | .malloc size raw => (malloc base s.heap size [raw]).map (s.returned size raw)
  | .calloc nmemb size raw =>
    (calloc base s.heap nmemb size [raw]).map (s.returned (nmemb * size % 2 ^ 64) raw)
  | .free ptr => (free s.heap ptr).map fun h =>
    { s with heap := h, live := match ptr with
      | none => s.live
      | some ptr => update s.live (ptr - 1) none }

def Sys.Live (s : Sys) (ptr : Nat) : Prop := ∃ a, ptr = a + 1 ∧ s.live a ≠ none

/-- The heap is sound: before the first call there is nothing, and then the blocks in use and the
free ones tile the regions, and the ones in use are large enough. -/
inductive Sound (base : Nat) (s : Sys) : Prop where
  | unused : s.heap.freeList = none → s.live = (fun _ => none) → s.regions = [] → Sound base s
  | tiled {nodes : List Nat} : Blocks base s.heap nodes s.used s.cells →
    (∀ a n, s.live a = some n → n + 16 ≤ 16 * s.heap.size a) → Sound base s

section

variable {base : Nat} {s : Sys} {raw : Option Nat} {size : Nat}

theorem cells_cons (s : Sys) (start n : Nat) :
    ({ s with regions := (start, n) :: s.regions } : Sys).cells =
      s.cells ∪ {u | start ≤ u ∧ u < start + n} := by
  ext u
  simp [Sys.cells, or_comm]

theorem used_update (s : Sys) (a n : Nat) :
    ({ s with live := update s.live a (some n) } : Sys).used = insert a s.used := by
  ext b
  by_cases hb : b = a
  · simp [Sys.used, hb]
  · simp [Sys.used, hb]

theorem used_erase (s : Sys) (a : Nat) :
    ({ s with live := update s.live a none } : Sys).used = s.used \ {a} := by
  ext b
  by_cases hb : b = a
  · simp [Sys.used, hb]
  · simp [Sys.used, hb]

/-- With a free list, the heap is sound and nothing else has changed. -/
theorem Sound.ready (h : Sound base s) :
    ∃ nodes, Blocks base (ready base s.heap).1 nodes s.used s.cells ∧
      (ready base s.heap).1.freeList = some (ready base s.heap).2 ∧
      (∀ a n, s.live a = some n → n + 16 ≤ 16 * (ready base s.heap).1.size a) ∧
      (ready base s.heap).1.bytes = s.heap.bytes := by
  cases h with
  | unused hfree hlive hregions =>
    have hused : s.used = ∅ := by
      ext a
      simp [Sys.used, hlive]
    have hcells : s.cells = ∅ := by
      ext u
      simp [Sys.cells, hregions]
    unfold Libc.ready
    rw [hfree, hused, hcells]
    refine ⟨[base], ⟨⟨rfl, ?_⟩, pairwise_singleton _ _, ⟨base, by simp, rfl⟩, ?_, ?_,
      fun _ _ h => h, ?_, fun _ h => h.elim⟩, rfl, ?_, rfl⟩
    · exact update_self _ _ _
    · exact update_self _ _ _
    · have hnone : ({a | a ∈ [base] ∧ a ≠ base} ∪ ∅ : Set Nat) = ∅ := by
        ext a
        simp
      rw [hnone]
      exact tiles_empty
    · intro a ha b _ hab
      exact absurd (mem_singleton.mp ha) hab
    · intro a n hn
      rw [hlive] at hn
      cases hn
  | tiled hb hpay =>
    obtain ⟨p, -, hp⟩ := hb.start
    unfold Libc.ready
    rw [hp]
    exact ⟨_, hb, hp, hpay, rfl⟩

def Fits (size : Nat) : Prop := size ≤ 2 ^ 64 - 32

theorem Fits.units (h : Fits size) :
    unitsFor size = (size + 15) / 16 + 1 ∧ growUnits (unitsFor size) < 2 ^ 60 := by
  unfold Fits at h
  have hunits : unitsFor size = (size + 15) / 16 + 1 := by
    unfold unitsFor
    rw [Nat.mod_eq_of_lt (by omega)]
  refine ⟨hunits, ?_⟩
  unfold growUnits
  split <;> omega

theorem Fits.increment_eq (h : Fits size) :
    increment (unitsFor size) = growUnits (unitsFor size) * 16 := by
  have hgrow := h.units.2
  exact Nat.mod_eq_of_lt (by omega)

/-- A block that was taken is in use, and the heap stays sound. -/
theorem Took.sound {h₀ h' : Heap} {block : Nat} {s' : Sys} {cells : Set Nat}
    (ht : Took base (unitsFor size) h₀ h' block s.used cells) (hfits : Fits size)
    (hpay : ∀ a n, s.live a = some n → n + 16 ≤ 16 * h₀.size a) (hheap : s'.heap = h')
    (hlive : s'.live = update s.live block (some size)) (hcells : s'.cells = cells) :
    Sound base s' := by
  obtain ⟨nodes, hb⟩ := ht.blocks
  have hused : s'.used = insert block s.used := by
    rw [← used_update s block size]
    unfold Sys.used
    rw [hlive]
  have hb' : Blocks base s'.heap nodes s'.used s'.cells := by
    rw [hheap, hused, hcells]
    exact hb
  refine .tiled hb' fun a n hn => ?_
  rw [hlive] at hn
  rw [hheap]
  by_cases hab : a = block
  · rw [hab, update_self] at hn
    cases hn
    rw [hab, ht.size, hfits.units.1]
    omega
  · rw [update_of_ne hab] at hn
    rw [ht.same a (by simp [Sys.used, hn])]
    exact hpay a n hn

/-- What `malloc` does to a sound heap: it ends, keeps the heap sound, answers with a block in use,
and with `NULL` only if `sbrk` has failed. -/
theorem Sound.malloc (h : Sound base s) (hfits : Fits size)
    (hraw : FreshUnits base s.cells (growUnits (unitsFor size)) raw) :
    ∃ r, malloc base s.heap size [raw] = some r ∧ Sound base (s.returned size raw r) ∧
      (r.ptr = none → size = 0 ∨ (raw = none ∧ r.answers = [])) ∧
      (∀ ptr, r.ptr = some ptr →
        ∃ a, ptr = a + 1 ∧ (s.returned size raw r).live a = some size) ∧
      r.heap.bytes = s.heap.bytes := by
  unfold Libc.malloc
  by_cases hsize : size = 0
  · rw [if_pos hsize]
    exact ⟨_, rfl, h, fun _ => .inl hsize, nofun, rfl⟩
  rw [if_neg hsize]
  obtain ⟨nodes, hb, hfree, hpay, hbytes⟩ := h.ready
  have hpos : 0 < unitsFor size := Nat.succ_pos _
  rcases hb.mallocLoop hfree hpos hraw with
    ⟨h', block, heq, ht⟩ | ⟨rfl, heq⟩ | ⟨h', block, hsome, heq, ht⟩
  · refine ⟨_, heq, ht.sound hfits hpay rfl rfl rfl, nofun, ?_, ht.bytes.trans hbytes⟩
    rintro ptr ⟨⟩
    exact ⟨block, rfl, update_self _ _ _⟩
  · refine ⟨_, heq, .tiled hb hpay, fun _ => .inr ⟨rfl, rfl⟩, nofun, hbytes⟩
  · obtain ⟨start, rfl⟩ := Option.ne_none_iff_exists'.mp hsome
    refine ⟨_, heq, ht.sound hfits hpay rfl rfl ?_, nofun, ?_, ht.bytes.trans hbytes⟩
    · have hregion : increment (unitsFor size) / 16 = growUnits (unitsFor size) := by
        rw [hfits.increment_eq, Nat.mul_div_cancel _ (by decide)]
      rw [← hregion]
      exact cells_cons s start _
    · rintro ptr ⟨⟩
      exact ⟨block, rfl, update_self _ _ _⟩

/-- `free` of a block in use keeps the heap sound. -/
theorem Sound.free {ptr : Option Nat} (h : Sound base s) (hptr : ∀ a, ptr = some a → s.Live a) :
    ∃ s', step base s (.free ptr) = some s' ∧ Sound base s' := by
  cases ptr with
  | none => exact ⟨s, rfl, h⟩
  | some ptr =>
    obtain ⟨a, rfl, ha⟩ := hptr ptr rfl
    cases h with
    | unused _ hlive _ =>
      rw [hlive] at ha
      exact absurd rfl ha
    | tiled hb hpay =>
      obtain ⟨h', nodes', heq, hb', hsame, -, -⟩ := hb.freeBlock ha
      refine ⟨_, congrArg (Option.map _) heq, ?_⟩
      rw [← used_erase] at hb'
      refine .tiled hb' fun b n hn => ?_
      by_cases hba : b = a
      · have hnone : update s.live a none b = some n := hn
        rw [hba, update_self] at hnone
        cases hnone
      · have hold : update s.live a none b = some n := hn
        rw [update_of_ne hba] at hold
        have hsize := hpay b n hold
        rw [← hsame b (by simp [Sys.used, hold]) hba] at hsize
        exact hsize

/-- `memset` reaches no header. -/
theorem Blocks.of_bytes {h : Heap} {nodes : List Nat} {others cells : Set Nat}
    (hb : Blocks base h nodes others cells) (bytes : Nat → BitVec 8) :
    Blocks base { h with bytes := bytes } nodes others cells :=
  ⟨hb.ring, hb.sorted, hb.start, hb.sentinel, hb.tiles, hb.used, hb.merged, hb.room⟩

theorem Sound.of_bytes (h : Sound base s) (bytes : Nat → BitVec 8) :
    Sound base { s with heap := { s.heap with bytes := bytes } } := by
  cases h with
  | unused hfree hlive hregions => exact .unused hfree hlive hregions
  | tiled hb hpay => exact .tiled (hb.of_bytes bytes) hpay

/-- The guard of `calloc`. -/
theorem calloc_guard (nmemb size : Nat) :
    (nmemb ≠ 0 ∧ size > (2 ^ 64 - 1) / nmemb) ↔ 2 ^ 64 ≤ nmemb * size := by
  rcases Nat.eq_zero_or_pos nmemb with rfl | hpos
  · simp
  · rw [gt_iff_lt, Nat.div_lt_iff_lt_mul hpos, Nat.mul_comm size]
    omega

/-- What `calloc` does to a sound heap. -/
theorem Sound.calloc {nmemb : Nat} (h : Sound base s)
    (hfits : 2 ^ 64 ≤ nmemb * size ∨ (Fits (nmemb * size) ∧
      FreshUnits base s.cells (growUnits (unitsFor (nmemb * size))) raw)) :
    ∃ r, calloc base s.heap nmemb size [raw] = some r ∧
      Sound base (s.returned (nmemb * size % 2 ^ 64) raw r) ∧
      ((r.ptr = none ∧ r.heap.bytes = s.heap.bytes) ∨
        ∃ a, r.ptr = some (a + 1) ∧ nmemb * size < 2 ^ 64 ∧
          (s.returned (nmemb * size % 2 ^ 64) raw r).live a = some (nmemb * size) ∧
          r.heap.bytes = clear s.heap.bytes (a + 1) (nmemb * size)) := by
  unfold Libc.calloc
  rcases hfits with hlarge | ⟨hfits, hraw⟩
  · rw [if_pos ((calloc_guard nmemb size).mpr hlarge)]
    exact ⟨_, rfl, h, .inl ⟨rfl, rfl⟩⟩
  have hlt : nmemb * size < 2 ^ 64 := by
    unfold Fits at hfits
    omega
  have hguard := (calloc_guard nmemb size).not.mpr (Nat.not_le.mpr hlt)
  rw [if_neg hguard]
  dsimp only
  rw [Nat.mod_eq_of_lt hlt]
  obtain ⟨⟨h', ptr, answers⟩, heq, hsound, -, hlive, hbytes⟩ := h.malloc hfits hraw
  rw [heq]
  cases ptr with
  | none => exact ⟨_, rfl, hsound, .inl ⟨rfl, hbytes⟩⟩
  | some ptr =>
    obtain ⟨a, rfl, ha⟩ := hlive ptr rfl
    refine ⟨_, rfl, hsound.of_bytes _, .inr ⟨a, rfl, hlt, ha, ?_⟩⟩
    rw [hbytes]

def Op.Ok (base : Nat) (s : Sys) : Op → Prop
  | .malloc size raw => Fits size ∧ FreshUnits base s.cells (growUnits (unitsFor size)) raw
  | .calloc nmemb size raw => 2 ^ 64 ≤ nmemb * size ∨ (Fits (nmemb * size) ∧
    FreshUnits base s.cells (growUnits (unitsFor (nmemb * size))) raw)
  | .free ptr => ∀ a, ptr = some a → s.Live a

/-- A call ends and keeps the heap sound. -/
theorem Sound.step {op : Op} (h : Sound base s) (hop : op.Ok base s) :
    ∃ s', step base s op = some s' ∧ Sound base s' := by
  cases op with
  | malloc size raw =>
    obtain ⟨r, heq, hsound, -⟩ := h.malloc hop.1 hop.2
    exact ⟨_, congrArg (Option.map _) heq, hsound⟩
  | calloc nmemb size raw =>
    obtain ⟨r, heq, hsound, -⟩ := h.calloc hop
    exact ⟨_, congrArg (Option.map _) heq, hsound⟩
  | free ptr => exact h.free hop

/-- The states of the runs whose calls meet a condition. -/
inductive Reachable (base : Nat) (P : Sys → Op → Prop) : Sys → Prop where
  | start (h : Heap) : h.freeList = none → Reachable base P ⟨h, fun _ => none, []⟩
  | step {s s' : Sys} {op : Op} : Reachable base P s → P s op → step base s op = some s' →
    Reachable base P s'

theorem Reachable.sound {P : Sys → Op → Prop} (hP : ∀ s op, P s op → op.Ok base s)
    (h : Reachable base P s) : Sound base s := by
  induction h with
  | start h hfree => exact .unused hfree rfl rfl
  | step _ hop heq ih =>
    obtain ⟨s', heq', hsound⟩ := ih.step (hP _ _ hop)
    obtain rfl := Option.some.inj (heq.symm.trans heq')
    exact hsound

/-- A call that asks for `2 ^ 63` bytes at most, or frees `NULL` or a block in use. -/
def Small (base : Nat) (s : Sys) : Op → Prop
  | .malloc size raw => size ≤ 2 ^ 63 ∧ FreshUnits base s.cells (growUnits (unitsFor size)) raw
  | .calloc nmemb size raw => nmemb * size ≤ 2 ^ 63 ∧
    FreshUnits base s.cells (growUnits (unitsFor (nmemb * size))) raw
  | .free ptr => ∀ a, ptr = some a → s.Live a

theorem Small.ok {op : Op} (h : Small base s op) : op.Ok base s := by
  have hfits : ∀ n, n ≤ 2 ^ 63 → Fits n := fun n hn => by
    unfold Fits
    omega
  cases op with
  | malloc size raw => exact ⟨hfits size h.1, h.2⟩
  | calloc nmemb size raw => exact .inr ⟨hfits _ h.1, h.2⟩
  | free ptr => exact h

/-- In every run the heap is sound, the next call ends, and `malloc` answers with `NULL` only if
nothing was asked for or `sbrk` has failed. -/
theorem heap_sound (h : Reachable base (Small base) s) :
    Sound base s ∧ (∀ op, Small base s op → ∃ s', step base s op = some s') ∧
      ∀ size raw, Small base s (.malloc size raw) →
        ∃ r, malloc base s.heap size [raw] = some r ∧
          (r.ptr = none → size = 0 ∨ (raw = none ∧ r.answers = [])) := by
  have hsound := h.sound fun _ _ => Small.ok
  refine ⟨hsound, fun op hop => ?_, fun size raw hop => ?_⟩
  · obtain ⟨s', heq, -⟩ := hsound.step hop.ok
    exact ⟨s', heq⟩
  · obtain ⟨r, heq, -, hnull, -⟩ := hsound.malloc hop.ok.1 hop.ok.2
    exact ⟨r, heq, hnull⟩

def emptyHeap : Heap := ⟨fun _ => 0, fun _ => 0, none, fun _ => 0#8⟩

/-- The sentinel is at 1, and `sbrk` answers the first call with the units from 2 on.  The block it
gets is freed again. -/
theorem heap_sound_mallocFree :
    ∃ s s', step 1 ⟨emptyHeap, fun _ => none, []⟩ (.malloc 64 (some 2)) = some s ∧
      step 1 s (.free (some 254)) = some s' ∧ Sound 1 s' := by
  have hsmall : Small 1 ⟨emptyHeap, fun _ => none, []⟩ (.malloc 64 (some 2)) := by
    refine ⟨by decide, ?_⟩
    rintro start ⟨⟩
    refine ⟨by decide, ?_, by decide⟩
    rintro u ⟨r, hr, -⟩
    cases hr
  obtain ⟨s, heq, hlive⟩ : ∃ s, step 1 ⟨emptyHeap, fun _ => none, []⟩ (.malloc 64 (some 2)) =
      some s ∧ s.live 253 ≠ none := ⟨_, rfl, by decide⟩
  have hfree : Small 1 s (.free (some 254)) := by
    rintro a ⟨⟩
    exact ⟨253, rfl, hlive⟩
  have hreach : Reachable 1 (Small 1) s := .step (.start emptyHeap rfl) hsmall heq
  obtain ⟨s', heq'⟩ := (heap_sound hreach).2.1 _ hfree
  exact ⟨s, s', heq, heq', (heap_sound (hreach.step hfree heq')).1⟩

end

end Aeryk.Libc
