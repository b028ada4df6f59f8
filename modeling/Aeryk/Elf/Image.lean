import Aeryk.Elf.Segments
import Aeryk.Lib.Places

/-!
# The image of an executable

What a process finds at the addresses of its segments.  Every page of a segment gets a frame of its
own, filled with the bytes of that segment and zeros.  Of a page that two segments share the later
one stays, with zeros where the bytes of the earlier one should be.
-/

namespace Aeryk.Elf

open List Lib Mem Vm

/-! ## The intended image -/

namespace Segment

def Has (s : Segment) (a : Nat) : Prop := s.vaddr ≤ a ∧ a < s.vaddr + s.memsz

instance (s : Segment) (a : Nat) : Decidable (s.Has a) := inferInstanceAs (Decidable (_ ∧ _))

def Covers (s : Segment) (v : Nat) : Prop := s.start ≤ v * pageSize ∧ v * pageSize < s.stop

instance (s : Segment) (v : Nat) : Decidable (s.Covers v) := inferInstanceAs (Decidable (_ ∧ _))

/-- The end of the segment, on a page boundary. -/
def roundedEnd (s : Segment) : Nat :=
  (s.vaddr + s.memsz + (pageSize - 1)) / pageSize * pageSize

end Segment

/-- Headers and contents lie inside the file, and the segments in the user half, apart from each
other. -/
structure WellFormed (f : File) : Prop where
  accepted : f.Accepted
  header : 64 ≤ f.size
  phdrs : f.number 32 8 + f.number 56 2 * phdrSize ≤ f.size
  contents : ∀ s ∈ f.segments, s.offset + s.filesz ≤ f.size
  sizes : ∀ s ∈ f.segments, s.filesz ≤ s.memsz
  user : ∀ s ∈ f.segments, s.vaddr + s.memsz ≤ 2 ^ 47
  disjoint : f.segments.Pairwise fun s t => ∀ a, s.Has a → ¬t.Has a

/-- What should be at an address of a segment. -/
def File.expected (f : File) (s : Segment) (a : Nat) : Byte :=
  if a - s.vaddr < s.filesz then f.bytes (s.offset + (a - s.vaddr)) else 0#8

def userByte (m : Memory) (r a : Nat) : Option Byte :=
  let w := m.leaf r (a / pageSize)
  if isSet w ptePresent && isSet w pteUser then
    some (byteOf (m.words (frameOf w)) (a % pageSize))
  else none

def HighestEnd (f : File) (brk : Nat) : Prop :=
  (∀ s ∈ f.segments, s.roundedEnd ≤ brk) ∧
    (f.segments ≠ [] → ∃ s ∈ f.segments, brk = s.roundedEnd)

/-- `elf_load` succeeds, with the right bytes and the right break. -/
def ImageCorrect (f : File) (m : Memory) (r : Nat) : Prop :=
  ∃ m' entry brk, elfLoad (frames r) (some f.memory) m = some (m', some (entry, brk)) ∧
    HighestEnd f brk ∧
    ∀ s ∈ f.segments, ∀ a, s.Has a → userByte m' r a = some (f.expected s a)

/-- Where a later segment lies on a page of an earlier one, the earlier one has only zeros
there. -/
def KeepsBytes (f : File) : Prop :=
  ∀ before s after, f.segments = before ++ s :: after → ∀ t ∈ after, ∀ a, s.Has a →
    t.Covers (a / pageSize) → f.expected s a = 0#8

section

variable {f : File} {s t : Segment} {m m' : Memory} {res : Nat → Bool} {R : Finset Nat}
  {K K' : Nat → Nat} {r v i a : Nat} {p : NewPage} {ps qs : List NewPage}

/-! ## Segments -/

theorem stop_eq (hs : s.vaddr + s.memsz ≤ 2 ^ 47) : s.stop = s.roundedEnd := by
  unfold Segment.stop segmentEnd pageAlignUp Segment.roundedEnd pageSize
  omega

theorem Segment.Covers.lt (h : s.Covers v) (hs : s.vaddr + s.memsz ≤ 2 ^ 47) : v < 2 ^ 35 := by
  have hstop := h.2
  rw [stop_eq hs] at hstop
  unfold Segment.roundedEnd pageSize at hstop
  omega

theorem Segment.Has.covers (h : s.Has a) (hs : s.vaddr + s.memsz ≤ 2 ^ 47) :
    s.Covers (a / pageSize) := by
  unfold Segment.Covers
  rw [stop_eq hs]
  obtain ⟨hle, hlt⟩ := h
  unfold Segment.start pageAlignDown Segment.roundedEnd pageSize
  omega

theorem segmentFlags_ok (n : Nat) : PageFlags (segmentFlags n) := by
  unfold segmentFlags
  refine ⟨?_, ?_, ?_⟩
  all_goals
    split
    all_goals
      split
      all_goals decide

theorem segmentFlags_user (n : Nat) : isSet (segmentFlags n) pteUser = true := by
  unfold segmentFlags
  split
  all_goals
    split
    all_goals decide

def File.newPage (f : File) (s : Segment) (v : Nat) : NewPage :=
  ⟨v * pageSize, segmentFlags s.flags, wordsOf (f.pageOfSegment s (v * pageSize))⟩

theorem newPage_page (hv : v < 2 ^ 35) : (f.newPage s v).page = v := by
  unfold File.newPage NewPage.page pageOf pageSize
  dsimp only
  omega

theorem newPage_ok (hv : v < 2 ^ 35) : (f.newPage s v).Ok := by
  refine ⟨?_, segmentFlags_ok s.flags⟩
  rw [newPage_page hv]
  unfold userPages
  omega

theorem mem_newPages (hs : s.vaddr + s.memsz ≤ 2 ^ 47) :
    p ∈ f.newPages s ↔ ∃ v, s.Covers v ∧ p = f.newPage s v := by
  have hcovers : ∀ k, s.Covers (s.start / pageSize + k) ↔ k < s.count := by
    intro k
    unfold Segment.Covers Segment.count
    rw [stop_eq hs]
    unfold Segment.start pageAlignDown Segment.roundedEnd pageSize
    omega
  have hstart : ∀ k, (s.start / pageSize + k) * pageSize = s.start + k * pageSize := by
    intro k
    unfold Segment.start pageAlignDown pageSize
    omega
  unfold File.newPages File.pagesFrom
  rw [mem_map]
  constructor
  · rintro ⟨k, hk, rfl⟩
    refine ⟨s.start / pageSize + k, (hcovers k).mpr (mem_range.mp hk), ?_⟩
    unfold File.newPage
    rw [hstart]
  · rintro ⟨v, hv, rfl⟩
    have hle : s.start / pageSize ≤ v := by
      have hlow := hv.1
      unfold pageSize at hlow ⊢
      omega
    obtain ⟨k, rfl⟩ := Nat.exists_eq_add_of_le hle
    refine ⟨k, mem_range.mpr ((hcovers k).mp hv), ?_⟩
    unfold File.newPage
    rw [hstart]

theorem mem_pagesIn_newPages (hs : s.vaddr + s.memsz ≤ 2 ^ 47) :
    v ∈ pagesIn (f.newPages s) ↔ s.Covers v := by
  unfold pagesIn
  rw [mem_map]
  constructor
  · rintro ⟨p, hp, rfl⟩
    obtain ⟨v, hv, rfl⟩ := (mem_newPages hs).mp hp
    rw [newPage_page (hv.lt hs)]
    exact hv
  · intro hv
    exact ⟨f.newPage s v, (mem_newPages hs).mpr ⟨v, hv, rfl⟩, newPage_page (hv.lt hs)⟩

theorem image_ok (h : ∀ s ∈ f.segments, s.vaddr + s.memsz ≤ 2 ^ 47) : ∀ p ∈ f.image, p.Ok := by
  intro p hp
  obtain ⟨s, hs, hps⟩ := mem_flatMap.mp hp
  obtain ⟨v, hv, rfl⟩ := (mem_newPages (h s hs)).mp hps
  exact newPage_ok (hv.lt (h s hs))

/-! ## The bytes of a page -/

theorem ram_getD (f : File) (off n j : Nat) :
    (f.ram off n).getD j 0#8 = if j < n then f.bytes ((off + j) % 2 ^ 64) else 0#8 := by
  unfold File.ram
  rw [getD_eq_getElem?_getD, getElem?_map]
  by_cases hj : j < n
  · rw [if_pos hj, getElem?_range hj]
    rfl
  · rw [if_neg hj, getElem?_eq_none (by rw [length_range]; omega)]
    rfl

/-- A page of a segment has the bytes of the segment, and zeros around them. -/
theorem pageOfSegment_apply (hv : v < 2 ^ 35) (hi : i < pageSize)
    (hs : s.vaddr + s.filesz ≤ 2 ^ 47) (hoff : s.offset + s.filesz ≤ f.size) :
    f.pageOfSegment s (v * pageSize) i =
      if s.vaddr ≤ v * pageSize + i ∧ v * pageSize + i < s.vaddr + s.filesz then
        f.bytes (s.offset + (v * pageSize + i - s.vaddr))
      else 0#8 := by
  have hsize := f.size_lt
  have hend : (v * pageSize + pageSize) % 2 ^ 64 = v * pageSize + pageSize := by
    unfold pageSize
    omega
  have hfile : (s.vaddr + s.filesz) % 2 ^ 64 = s.vaddr + s.filesz := by omega
  unfold File.pageOfSegment
  rw [hend, hfile]
  generalize hlo : (if v * pageSize > s.vaddr then v * pageSize else s.vaddr) = lo
  generalize hhi : (if v * pageSize + pageSize < s.vaddr + s.filesz then v * pageSize + pageSize
    else s.vaddr + s.filesz) = hi
  have hlo' : lo = max (v * pageSize) s.vaddr := by
    rw [← hlo]
    split
    all_goals omega
  have hhi' : hi = min (v * pageSize + pageSize) (s.vaddr + s.filesz) := by
    rw [← hhi]
    split
    all_goals omega
  by_cases hc : lo < hi
  · rw [if_pos hc]
    by_cases hfirst : lo - v * pageSize ≤ i
    · rw [if_pos hfirst, ram_getD]
      by_cases hin : i - (lo - v * pageSize) < hi - lo
      · rw [if_pos hin, if_pos (by omega)]
        refine congrArg f.bytes ?_
        omega
      · rw [if_neg hin, if_neg (by omega)]
    · rw [if_neg hfirst, if_neg (by omega)]
  · rw [if_neg hc, if_neg (by omega)]

/-! ## The page that stays -/

theorem lastAt_append (ps qs : List NewPage) (v : Nat) :
    lastAt (ps ++ qs) v = (lastAt qs v).or (lastAt ps v) := by
  unfold lastAt
  rw [reverse_append, find?_append]

/-- The page that stays is one of the last part of the list that has it. -/
theorem lastAt_flatMap {σ : Type} {g : σ → List NewPage} {before after : List σ} {x : σ}
    (hlater : ∀ y ∈ after, v ∉ pagesIn (g y)) (hv : v ∈ pagesIn (g x)) :
    lastAt ((before ++ x :: after).flatMap g) v = lastAt (g x) v := by
  have hafter : lastAt (after.flatMap g) v = none := by
    rw [← Option.not_isSome_iff_eq_none, lastAt_isSome]
    unfold pagesIn
    rw [map_flatMap, mem_flatMap]
    rintro ⟨y, hy, hmem⟩
    exact hlater y hy hmem
  obtain ⟨p, hp⟩ := Option.isSome_iff_exists.mp (lastAt_isSome.mpr hv)
  rw [flatMap_append, flatMap_cons, lastAt_append, lastAt_append, hafter, hp]
  rfl

/-! ## Reads after the loader -/

/-- A page of a loaded list is read as it was filled. -/
theorem userByte_of_loaded (h : Loaded res R K m r ps m' K') (hm : Accounted m res R K)
    (hlast : lastAt ps v = some p) (hp : p.Ok) (huser : isSet p.flags pteUser = true)
    (hi : i < pageSize) : userByte m' r (v * pageSize + i) = some (byteOf p.ws i) := by
  have hv : v < userPages := (lastAt_mem hlast).2 ▸ hp.user
  obtain ⟨g, hg, hleaf, -, hws⟩ := h.filled v hv p hlast
  have hsmall := Nat.lt_of_lt_of_le (mem_freeFrames.mp hg).1 hm.small
  have hpage : (v * pageSize + i) / pageSize = v := by
    unfold pageSize at hi ⊢
    omega
  have hoff : (v * pageSize + i) % pageSize = i := by
    unfold pageSize at hi ⊢
    omega
  unfold userByte
  dsimp only
  rw [hpage, hoff, hleaf, isSet_entry hsmall (by decide), isSet_entry hsmall (by decide),
    hp.flags.present, huser, frameOf_entry hsmall hp.flags.addr, hws]
  rfl

/-- The pages of the segments are there after the loader, each as the last segment on it has
filled it. -/
theorem WellFormed.reads (h : WellFormed f) (hm : Accounted m res R K) (hr : r ∈ R)
    (hroom : framesForList m r f.image ≤ m.freeCount) :
    ∃ m', elfLoad (frames r) (some f.memory) m =
        some (m', some (f.entry, highest 0 f.segments)) ∧
      ∀ before t after, f.segments = before ++ t :: after → ∀ v i, t.Covers v →
        (∀ t' ∈ after, ¬t'.Covers v) → i < pageSize →
        userByte m' r (v * pageSize + i) = some (f.pageOfSegment t (v * pageSize) i) := by
  obtain ⟨m', K', heq, hl⟩ := hm.mapAll_enough hr (image_ok h.user) hroom
  refine ⟨m', ?_, ?_⟩
  · rw [elfLoad_memory, if_pos h.accepted, heq]
    rfl
  · intro before t after hsplit v i hv hlater hi
    have hmem : t ∈ f.segments := by
      rw [hsplit]
      simp
    have hpages : v ∈ pagesIn (f.newPages t) := (mem_pagesIn_newPages (h.user t hmem)).mpr hv
    obtain ⟨p, hp⟩ := Option.isSome_iff_exists.mp (lastAt_isSome.mpr hpages)
    have hlast : lastAt f.image v = some p := by
      unfold File.image
      rw [hsplit, lastAt_flatMap (fun t' ht' hin => ?_) hpages, hp]
      have ht'mem : t' ∈ f.segments := by
        rw [hsplit]
        simp [ht']
      exact hlater t' ht' ((mem_pagesIn_newPages (h.user t' ht'mem)).mp hin)
    obtain ⟨u, hu, rfl⟩ := (mem_newPages (h.user t hmem)).mp (lastAt_mem hp).1
    obtain rfl : u = v := by
      rw [← (lastAt_mem hp).2]
      exact (newPage_page (hu.lt (h.user t hmem))).symm
    rw [userByte_of_loaded hl hm hlast (newPage_ok (hv.lt (h.user t hmem))) (segmentFlags_user _)
      hi]
    unfold File.newPage
    rw [byteOf_wordsOf]

/-! ## The break -/

theorem le_highest (e : Nat) (ss : List Segment) :
    e ≤ highest e ss ∧ ∀ s ∈ ss, s.stop ≤ highest e ss := by
  induction ss generalizing e with
  | nil => exact ⟨le_refl e, fun s hs => absurd hs not_mem_nil⟩
  | cons t ss ih =>
    obtain ⟨hle, hall⟩ := ih (if t.stop > e then t.stop else e)
    have hmax : e ≤ (if t.stop > e then t.stop else e) ∧
        t.stop ≤ (if t.stop > e then t.stop else e) := by
      split
      all_goals omega
    refine ⟨hmax.1.trans hle, fun s hs => ?_⟩
    rcases mem_cons.mp hs with rfl | hs
    · exact hmax.2.trans hle
    · exact hall s hs

theorem highest_cases (e : Nat) (ss : List Segment) :
    highest e ss = e ∨ ∃ s ∈ ss, highest e ss = s.stop := by
  induction ss generalizing e with
  | nil => exact .inl rfl
  | cons t ss ih =>
    rcases ih (if t.stop > e then t.stop else e) with heq | ⟨s, hs, heq⟩
    · have hcons : highest e (t :: ss) = if t.stop > e then t.stop else e := heq
      by_cases hgt : t.stop > e
      · rw [if_pos hgt] at hcons
        exact .inr ⟨t, mem_cons_self, hcons⟩
      · rw [if_neg hgt] at hcons
        exact .inl hcons
    · exact .inr ⟨s, mem_cons_of_mem t hs, heq⟩

theorem WellFormed.highestEnd (h : WellFormed f) : HighestEnd f (highest 0 f.segments) := by
  refine ⟨fun s hs => ?_, fun hne => ?_⟩
  · rw [← stop_eq (h.user s hs)]
    exact (le_highest 0 f.segments).2 s hs
  · rcases highest_cases 0 f.segments with heq | ⟨s, hs, heq⟩
    · obtain ⟨s, hs⟩ := exists_mem_of_ne_nil _ hne
      have hle := (le_highest 0 f.segments).2 s hs
      refine ⟨s, hs, ?_⟩
      rw [← stop_eq (h.user s hs)]
      omega
    · exact ⟨s, hs, heq.trans (stop_eq (h.user s hs))⟩

/-! ## The image -/

/-- The page of an address, filled by its own segment. -/
theorem WellFormed.own_byte (h : WellFormed f) (hs : s ∈ f.segments) (ha : s.Has a) :
    f.pageOfSegment s (a / pageSize * pageSize) (a % pageSize) = f.expected s a := by
  have hv := (ha.covers (h.user s hs)).lt (h.user s hs)
  have hsz := h.sizes s hs
  have huser := h.user s hs
  have hsum : a / pageSize * pageSize + a % pageSize = a := Nat.div_add_mod' a pageSize
  rw [pageOfSegment_apply hv (Nat.mod_lt a (by decide)) (by omega) (h.contents s hs), hsum]
  unfold File.expected
  obtain ⟨hle, hlt⟩ := ha
  by_cases hin : a - s.vaddr < s.filesz
  · rw [if_pos hin, if_pos (by omega)]
  · rw [if_neg hin, if_neg (by omega)]

/-- The page of an address, filled by a segment that does not have the address. -/
theorem WellFormed.other_byte (h : WellFormed f) (ht : t ∈ f.segments)
    (hv : t.Covers (a / pageSize)) (ha : ¬t.Has a) :
    f.pageOfSegment t (a / pageSize * pageSize) (a % pageSize) = 0#8 := by
  have hsz := h.sizes t ht
  have huser := h.user t ht
  have hsum : a / pageSize * pageSize + a % pageSize = a := Nat.div_add_mod' a pageSize
  rw [pageOfSegment_apply (hv.lt huser) (Nat.mod_lt a (by decide)) (by omega) (h.contents t ht),
    hsum, if_neg]
  rintro ⟨hle, hlt⟩
  exact ha ⟨hle, by omega⟩

/-- A later segment does not have the address. -/
theorem WellFormed.later (h : WellFormed f) {before after : List Segment}
    (hsplit : f.segments = before ++ s :: after) (ht : t ∈ after) (ha : s.Has a) : ¬t.Has a := by
  have hpair := h.disjoint
  rw [hsplit, pairwise_append] at hpair
  exact (pairwise_cons.mp hpair.2.1).1 t ht a ha

/-- The image of a well-formed file is the intended one exactly if no later segment lies on a
page with bytes of an earlier one other than zeros. -/
theorem image_correct_iff (h : WellFormed f) (hm : Accounted m res R K) (hr : r ∈ R)
    (hroom : framesForList m r f.image ≤ m.freeCount) :
    ImageCorrect f m r ↔ KeepsBytes f := by
  obtain ⟨m', heq, hreads⟩ := h.reads hm hr hroom
  have hsum : ∀ a, a / pageSize * pageSize + a % pageSize = a := fun a =>
    Nat.div_add_mod' a pageSize
  have hmod : ∀ a, a % pageSize < pageSize := fun a => Nat.mod_lt a (by decide)
  constructor
  · rintro ⟨m₁, entry, brk, heq₁, -, hbytes⟩ before s after hsplit t ht a ha hv
    rw [heq] at heq₁
    obtain ⟨rfl, -⟩ := Prod.mk.inj (Option.some.inj heq₁)
    have hs : s ∈ f.segments := by
      rw [hsplit]
      simp
    have htmem : t ∈ f.segments := by
      rw [hsplit]
      simp [ht]
    obtain ⟨before', u, after', hsplit', hu, hlater⟩ :=
      exists_last_place (P := (Segment.Covers · _)) htmem hv
    have humem : u ∈ f.segments := by
      rw [hsplit']
      simp
    have hread := hreads before' u after' hsplit' _ _ hu hlater (hmod a)
    rw [hsum, hbytes s hs a ha] at hread
    rcases place_cases hsplit hsplit' with ⟨rfl, rfl⟩ | ⟨z, rfl⟩ | ⟨z, rfl⟩
    · exact absurd hv (hlater t ht)
    · exact absurd hv (hlater t (by simp [ht]))
    · rw [h.other_byte humem hu (h.later hsplit (by simp) ha)] at hread
      exact Option.some.inj hread
  · intro hkeep
    refine ⟨m', f.entry, highest 0 f.segments, heq, h.highestEnd, fun s hs a ha => ?_⟩
    obtain ⟨before, after, hsplit⟩ := append_of_mem hs
    have hv := ha.covers (h.user s hs)
    obtain ⟨before', u, after', hsplit', hu, hlater⟩ :=
      exists_last_place (P := (Segment.Covers · _)) hs hv
    have humem : u ∈ f.segments := by
      rw [hsplit']
      simp
    have hread := hreads before' u after' hsplit' _ _ hu hlater (hmod a)
    rw [hsum] at hread
    rw [hread]
    rcases place_cases hsplit hsplit' with ⟨rfl, -⟩ | ⟨z, rfl⟩ | ⟨z, rfl⟩
    · rw [h.own_byte hs ha]
    · exact absurd hv (hlater s (by simp))
    · rw [h.other_byte humem hu (h.later hsplit (by simp) ha),
        hkeep before s _ hsplit u (by simp) a ha hu]

end

/-! ## Two segments -/

/-- A file with two segments, each its first byte, at `0x400000` and at `0x400001 + 256 * b`. -/
def twoSegments (b : Byte) : File where
  bytes := fun
    | 0 => 0x7f#8 | 1 => 0x45#8 | 2 => 0x4c#8 | 3 => 0x46#8 | 4 => 2#8 | 5 => 1#8
    | 16 => 2#8 | 32 => 64#8 | 56 => 2#8
    | 64 => 1#8 | 82 => 0x40#8 | 96 => 1#8 | 104 => 1#8
    | 120 => 1#8 | 136 => 1#8 | 137 => b | 138 => 0x40#8 | 152 => 1#8 | 160 => 1#8
    | _ => 0#8
  size := 176
  size_lt := by decide

def oneByteEach (d : Nat) : List Segment :=
  [⟨0, 0x400000, 1, 1, 0⟩, ⟨0, 0x400000 + d, 1, 1, 0⟩]

theorem wellFormed_of_oneByteEach {f : File} {d : Nat} (haccepted : f.Accepted)
    (hsize : f.size = 176) (hphoff : f.number 32 8 = 64) (hphnum : f.number 56 2 = 2)
    (hsegments : f.segments = oneByteEach d) (hd : 0 < d) (hd' : d ≤ 2 ^ 16) : WellFormed f where
  accepted := haccepted
  header := by rw [hsize]; decide
  phdrs := by rw [hphoff, hphnum, hsize]; decide
  contents := by
    rw [hsegments, hsize]
    simp [oneByteEach]
  sizes := by
    rw [hsegments]
    simp [oneByteEach]
  user := by
    rw [hsegments]
    simp only [oneByteEach, mem_cons, not_mem_nil, or_false, forall_eq_or_imp, forall_eq]
    omega
  disjoint := by
    rw [hsegments]
    unfold oneByteEach Segment.Has
    simp only [pairwise_cons, mem_singleton, forall_eq, not_mem_nil,
      false_imp_iff, implies_true, List.Pairwise.nil, and_true]
    intro a ha
    omega

theorem twoSegments_shared : (twoSegments 0#8).segments = oneByteEach 1 := by decide +kernel

theorem twoSegments_apart : (twoSegments 16#8).segments = oneByteEach 0x1001 := by decide +kernel

theorem twoSegments_shared_wellFormed : WellFormed (twoSegments 0#8) :=
  wellFormed_of_oneByteEach (by decide +kernel) rfl (by decide +kernel) (by decide +kernel)
    twoSegments_shared (by decide) (by decide)

theorem twoSegments_apart_wellFormed : WellFormed (twoSegments 16#8) :=
  wellFormed_of_oneByteEach (by decide +kernel) rfl (by decide +kernel) (by decide +kernel)
    twoSegments_apart (by decide) (by decide)

/-- There is room for a short image beside one page. -/
theorem onePage_room {ps : List NewPage} (hlen : ps.length ≤ 2) :
    ∃ K, Accounted (onePage 2 1).1 onlyZero {(onePage 2 1).2} K ∧
      framesForList (onePage 2 1).1 (onePage 2 1).2 ps ≤ (onePage 2 1).1.freeCount := by
  obtain ⟨g, -, hacc, -, hfree, -⟩ := onePage_spec (v := 1) Nat.two_pos (by decide) (by decide)
  refine ⟨0, hacc, ?_⟩
  have hle := framesForList_le (onePage 2 1).1 (onePage 2 1).2 ps
  rw [hacc.freeCount_eq]
  omega

/-- Both segments lie on one page, and the byte of the first reads as zero. -/
theorem shared_page_loses_byte :
    ∃ f : File, WellFormed f ∧ framesForList (onePage 2 1).1 (onePage 2 1).2 f.image ≤
        (onePage 2 1).1.freeCount ∧
      ∃ m' o, elfLoad (frames (onePage 2 1).2) (some f.memory) (onePage 2 1).1 = some (m', o) ∧
        ∃ s ∈ f.segments, s.Has 0x400000 ∧ f.expected s 0x400000 = 0x7f#8 ∧
          userByte m' (onePage 2 1).2 0x400000 = some 0#8 := by
  have hlen : (twoSegments 0#8).image.length ≤ 2 := by decide +kernel
  obtain ⟨K, hacc, hroom⟩ := onePage_room hlen
  have hwf := twoSegments_shared_wellFormed
  obtain ⟨m', heq, hreads⟩ := hwf.reads hacc (Finset.mem_singleton_self _) hroom
  refine ⟨twoSegments 0#8, hwf, hroom, m', _, heq, ⟨0, 0x400000, 1, 1, 0⟩, ?_, by decide,
    by decide +kernel, ?_⟩
  · rw [twoSegments_shared]
    exact mem_cons_self
  · have hread := hreads [⟨0, 0x400000, 1, 1, 0⟩] ⟨0, 0x400001, 1, 1, 0⟩ [] twoSegments_shared
      0x400 0 (by decide +kernel) (fun _ ht => absurd ht not_mem_nil) (by decide)
    refine hread.trans (congrArg some ?_)
    decide +kernel

/-- Segments on pages of their own. -/
theorem image_correct_twoSegments :
    WellFormed (twoSegments 16#8) ∧
      (ImageCorrect (twoSegments 16#8) (onePage 2 1).1 (onePage 2 1).2 ↔
        KeepsBytes (twoSegments 16#8)) := by
  have hlen : (twoSegments 16#8).image.length ≤ 2 := by decide +kernel
  obtain ⟨K, hacc, hroom⟩ := onePage_room hlen
  exact ⟨twoSegments_apart_wellFormed, image_correct_iff twoSegments_apart_wellFormed hacc
    (Finset.mem_singleton_self _) hroom⟩

end Aeryk.Elf
