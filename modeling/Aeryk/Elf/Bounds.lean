import Aeryk.Elf.Loader

/-!
# What the loader reads

`elf_load` never looks at the size of the file.  It stays inside the file exactly when the file is
`Bounded`: the header and each program header reach as far as they are looked at, and the part of a
segment that its pages ask for is there.  Sums are of 64 bits, and a segment whose end has wrapped
asks for nothing.
-/

namespace Aeryk.Elf

open Mem Vm

/-- No read of a call of `elf_load` is outside the file, whatever memory there is. -/
def ReadsInside (f : File) : Prop :=
  ∀ (σ : Type) (fr : Frames σ) (s : σ), elfLoad fr (some f.inside) s ≠ none

/-- Where the copy of a segment's bytes ends: with the bytes of the file or with its pages. -/
def copyEnd (vaddr filesz memsz : Nat) : Nat :=
  min ((vaddr + filesz) % 2 ^ 64) (segmentEnd vaddr memsz)

/-- The segment of the program header at `ph` lies in the file as far as it is copied. -/
def SegmentBounded (f : File) (ph : Nat) : Prop :=
  let vaddr := f.field (ph + 16) 8
  let stop := copyEnd vaddr (f.field (ph + 32) 8) (f.field (ph + 40) 8)
  vaddr < stop → f.field (ph + 8) 8 + (stop - vaddr) ≤ f.size

/-- The program header at `ph` reaches as far as it is looked at. -/
def PhdrBounded (f : File) (ph : Nat) : Prop :=
  ph + 4 ≤ f.size ∧ (f.field ph 4 = ptLoad → ph + 48 ≤ f.size ∧ SegmentBounded f ph)

/-- All that the header leads to lies in the file. -/
def Bounded (f : File) : Prop :=
  4 ≤ f.size ∧ (f.field 0 4 = elfMagic → 5 ≤ f.size ∧ (f.field 4 1 = elfClass64 → 6 ≤ f.size ∧
    (f.field 5 1 = elfData2Lsb → 18 ≤ f.size ∧ (f.field 16 2 = etExec → 58 ≤ f.size ∧
      ∀ i < f.field 56 2, PhdrBounded f ((f.field 32 8 + i * phdrSize) % 2 ^ 64)))))

/-! ## Reads inside a file -/

section

variable {f : File} {off n : Nat}

theorem slice_succ (f : File) (off n : Nat) :
    f.slice off (n + 1) = f.bytes off :: f.slice (off + 1) n := by
  unfold File.slice
  rw [List.range_succ_eq_map, List.map_cons, List.map_map, Nat.add_zero]
  refine congrArg (List.cons _) (List.map_congr_left fun i _ => ?_)
  rw [Function.comp_apply, Nat.succ_eq_add_one, Nat.add_comm i 1, Nat.add_assoc]

/-- A read of some bytes has an answer if it ends in the file. -/
theorem inside_slice (hn : 0 < n) :
    f.inside.slice off n =
      if off % 2 ^ 64 + n ≤ f.size then some (f.slice (off % 2 ^ 64) n) else none := by
  have hsize := f.size_lt
  induction n generalizing off with
  | zero => cases hn
  | succ n ih =>
    rw [View.slice, slice_succ]
    unfold File.inside
    by_cases hlt : off % 2 ^ 64 < f.size
    · rw [if_pos hlt]
      have hnext : (off + 1) % 2 ^ 64 = off % 2 ^ 64 + 1 := by omega
      cases n with
      | zero =>
        rw [if_pos (by omega)]
        rfl
      | succ n =>
        have hrest := @ih (off + 1) (Nat.succ_pos n)
        unfold File.inside at hrest
        rw [hrest, hnext]
        by_cases hend : off % 2 ^ 64 + (n + 1 + 1) ≤ f.size
        · rw [if_pos hend, if_pos (by omega)]
          rfl
        · rw [if_neg hend, if_neg (by omega)]
          rfl
    · rw [if_neg hlt, if_neg (by omega)]
      rfl

theorem inside_field (hn : 0 < n) :
    f.inside.field off n =
      if off % 2 ^ 64 + n ≤ f.size then some (f.field (off % 2 ^ 64) n) else none := by
  unfold View.field
  rw [inside_slice hn]
  split
  · rfl
  · rfl

/-- A field of a header that lies in the file. -/
theorem inside_field_add {ph k : Nat} (hph : ph % 2 ^ 64 + k + n ≤ f.size) (hn : 0 < n) :
    f.inside.field (ph + k) n = some (f.field (ph % 2 ^ 64 + k) n) := by
  have hsize := f.size_lt
  have hoff : (ph + k) % 2 ^ 64 = ph % 2 ^ 64 + k := by omega
  rw [inside_field hn, hoff, if_pos hph]

theorem number_lt (l : List Byte) : View.number l < 256 ^ l.length := by
  induction l with
  | nil => exact Nat.one_pos
  | cons b l ih =>
    rw [View.number, List.length_cons, Nat.pow_succ]
    have hb := b.isLt
    omega

theorem field_lt (f : File) (off n : Nat) : f.field off n < 256 ^ n := by
  have h := number_lt (f.slice off n)
  rwa [File.slice, List.length_map, List.length_range] at h

end

/-! ## Pages -/

section

variable {f : File} {ph pageVaddr n : Nat}

/-- The bytes of the segment that fall into a page. -/
def pageCopy (vaddr filesz pageVaddr : Nat) : Nat × Nat :=
  (max pageVaddr vaddr, min ((pageVaddr + pageSize) % 2 ^ 64) ((vaddr + filesz) % 2 ^ 64))

/-- The copy for one page is inside the file. -/
def PageBounded (f : File) (ph pageVaddr : Nat) : Prop :=
  let vaddr := f.field (ph + 16) 8
  let c := pageCopy vaddr (f.field (ph + 32) 8) pageVaddr
  c.1 < c.2 → (f.field (ph + 8) 8 + (c.1 - vaddr)) % 2 ^ 64 + (c.2 - c.1) ≤ f.size

theorem ite_gt_eq_max (a b : Nat) : (if a > b then a else b) = max a b := by
  split <;> omega

theorem ite_lt_eq_min (a b : Nat) : (if a < b then a else b) = min a b := by
  split <;> omega

theorem pageBytes_isSome_iff (hph : ph % 2 ^ 64 + 48 ≤ f.size) :
    (pageBytes f.inside ph pageVaddr).isSome ↔ PageBounded f (ph % 2 ^ 64) pageVaddr := by
  unfold pageBytes PageBounded pageCopy
  rw [inside_field_add (by omega) (by omega), inside_field_add (by omega) (by omega)]
  dsimp only [Option.bind_eq_bind, Option.bind_some]
  rw [inside_field_add (by omega) (by omega), ite_gt_eq_max, ite_lt_eq_min]
  dsimp only [Option.bind_some]
  split
  next hlt =>
    rw [inside_slice (Nat.sub_pos_of_lt hlt)]
    split
    next hle => exact iff_of_true rfl fun _ => hle
    next hgt => exact iff_of_false Bool.false_ne_true fun h => hgt (h hlt)
  next hge => exact iff_of_true rfl fun h => absurd h hge

variable {σ : Type} {fr : Frames σ} {s : σ} {flags : Word}

/-- If all pages are bounded, the loop over them reads only the file. -/
theorem loadPages_isSome (hph : ph % 2 ^ 64 + 48 ≤ f.size)
    (h : ∀ j < n, PageBounded f (ph % 2 ^ 64) (pageVaddr + j * pageSize)) :
    (loadPages fr f.inside ph flags n pageVaddr s).isSome := by
  induction n generalizing pageVaddr s with
  | zero => rfl
  | succ n ih =>
    rw [loadPages]
    split
    · rfl
    · have hfirst := h 0 (Nat.succ_pos n)
      rw [Nat.zero_mul, Nat.add_zero] at hfirst
      obtain ⟨bytes, hbytes⟩ :=
        Option.isSome_iff_exists.mp ((pageBytes_isSome_iff hph).mpr hfirst)
      rw [hbytes]
      refine ih fun j hj => ?_
      have hnext := h (j + 1) (Nat.succ_lt_succ hj)
      rw [Nat.add_mul, Nat.one_mul] at hnext
      rw [Nat.add_assoc, Nat.add_comm pageSize]
      exact hnext

/-- Memory in which there is always a frame. -/
def plenty : Frames Unit := ⟨fun s => (s, pageSize), fun s _ _ => s, fun s _ _ _ => s⟩

/-- With frames for all pages the loop reads for all of them. -/
theorem pageBounded_of_plenty (hph : ph % 2 ^ 64 + 48 ≤ f.size)
    (h : loadPages plenty f.inside ph flags n pageVaddr () ≠ none) :
    (∀ j < n, PageBounded f (ph % 2 ^ 64) (pageVaddr + j * pageSize)) ∧
      loadPages plenty f.inside ph flags n pageVaddr () = some ((), true) := by
  induction n generalizing pageVaddr with
  | zero => exact ⟨fun j hj => absurd hj (Nat.not_lt_zero j), rfl⟩
  | succ n ih =>
    rw [loadPages, if_neg (by decide)] at h ⊢
    cases hbytes : pageBytes f.inside ph pageVaddr with
    | none =>
      rw [hbytes] at h
      exact absurd rfl h
    | some bytes =>
      rw [hbytes] at h
      obtain ⟨hrest, heq⟩ := ih h
      refine ⟨fun j hj => ?_, heq⟩
      cases j with
      | zero =>
        rw [Nat.zero_mul, Nat.add_zero]
        exact (pageBytes_isSome_iff hph).mp (by rw [hbytes]; rfl)
      | succ j =>
        have hnext := hrest j (Nat.lt_of_succ_lt_succ hj)
        rw [Nat.add_assoc, Nat.add_comm pageSize] at hnext
        rw [Nat.add_mul, Nat.one_mul]
        exact hnext

end

/-! ## Segments -/

section

variable {f : File} {ph n : Nat}

/-- The copies for the pages from `a` to `b` join to one copy. -/
theorem joined_copies {vaddr offset fileEnd size a b : Nat} (ha : a = vaddr / 4096)
    (hb : b * 4096 < 2 ^ 64) (hsize : size < 2 ^ 32) (ho : offset < 2 ^ 64) :
    (vaddr < min fileEnd (b * 4096) → offset + (min fileEnd (b * 4096) - vaddr) ≤ size) ↔
      ∀ j < b - a, max (a * 4096 + j * 4096) vaddr <
          min ((a * 4096 + j * 4096 + 4096) % 2 ^ 64) fileEnd →
        (offset + (max (a * 4096 + j * 4096) vaddr - vaddr)) % 2 ^ 64 +
            (min ((a * 4096 + j * 4096 + 4096) % 2 ^ 64) fileEnd -
              max (a * 4096 + j * 4096) vaddr) ≤ size := by
  constructor
  · intro h j hj hlt
    have hend : a * 4096 + j * 4096 + 4096 ≤ b * 4096 := by omega
    have hall := h (by omega)
    omega
  · intro h hlt
    -- the pages up to the `j`-th have been copied
    have hupto : ∀ j < b - a,
        offset + (min fileEnd (a * 4096 + (j + 1) * 4096) - vaddr) ≤ size := by
      intro j
      induction j with
      | zero =>
        intro hj
        have hfirst := h 0 hj
        omega
      | succ j ih =>
        intro hj
        have hprev := ih (by omega)
        have hpage := h (j + 1) hj
        have hend : a * 4096 + (j + 1) * 4096 + 4096 ≤ b * 4096 := by omega
        have hnext : a * 4096 + (j + 1 + 1) * 4096 = a * 4096 + (j + 1) * 4096 + 4096 := by
          omega
        have hstart : vaddr ≤ a * 4096 + (j + 1) * 4096 := by omega
        rw [hnext]
        rw [Nat.mod_eq_of_lt (Nat.lt_of_le_of_lt hend hb), Nat.max_eq_left hstart] at hpage
        obtain ⟨p, hp⟩ : ∃ p, a * 4096 + (j + 1) * 4096 = p := ⟨_, rfl⟩
        rw [hp] at hpage hprev hend hstart ⊢
        rcases Nat.lt_or_ge p fileEnd with hmore | hdone
        · rw [Nat.min_eq_right (Nat.le_of_lt hmore)] at hprev
          rw [Nat.mod_eq_of_lt (by omega)] at hpage
          have hle := hpage (Nat.lt_min.mpr ⟨by omega, hmore⟩)
          omega
        · rw [Nat.min_eq_left hdone] at hprev
          rw [Nat.min_eq_left (by omega)]
          exact hprev
    have hlast := hupto (b - a - 1) (by omega)
    have hb' : a * 4096 + (b - a - 1 + 1) * 4096 = b * 4096 := by omega
    rw [hb'] at hlast
    exact hlast

/-- A segment is bounded if all its pages are. -/
theorem segmentBounded_iff (f : File) (ph : Nat) :
    SegmentBounded f ph ↔
      ∀ j < (segmentEnd (f.field (ph + 16) 8) (f.field (ph + 40) 8) -
          pageAlignDown (f.field (ph + 16) 8)) / pageSize,
        PageBounded f ph (pageAlignDown (f.field (ph + 16) 8) + j * pageSize) := by
  have ho := field_lt f (ph + 8) 8
  unfold SegmentBounded PageBounded pageCopy copyEnd segmentEnd pageAlignUp pageAlignDown pageSize
  dsimp only
  generalize f.field (ph + 16) 8 = vaddr
  generalize f.field (ph + 8) 8 = offset at *
  generalize (vaddr + f.field (ph + 32) 8) % 2 ^ 64 = fileEnd
  have htop : ((vaddr + f.field (ph + 40) 8) % 2 ^ 64 + (4096 - 1)) % 2 ^ 64 / 4096 * 4096 <
      2 ^ 64 := by omega
  generalize ((vaddr + f.field (ph + 40) 8) % 2 ^ 64 + (4096 - 1)) % 2 ^ 64 / 4096 = b at *
  have hcount : (b * 4096 - vaddr / 4096 * 4096) / 4096 = b - vaddr / 4096 := by omega
  rw [hcount]
  exact joined_copies rfl htop f.size_lt ho

variable {σ : Type} {fr : Frames σ} {s : σ} {highestEnd : Nat}

theorem loadSegment_isSome (h : PhdrBounded f (ph % 2 ^ 64)) :
    (loadSegment fr f.inside ph highestEnd s).isSome := by
  unfold loadSegment
  rw [inside_field (by decide), if_pos h.1]
  dsimp only [Option.bind_eq_bind, Option.bind_some]
  split
  · rfl
  next htype =>
    obtain ⟨hph, hseg⟩ := h.2 (not_not.mp htype)
    rw [inside_field_add (by omega) (by omega), inside_field_add (by omega) (by omega),
      inside_field_add (by omega) (by omega)]
    dsimp only [Option.bind_some]
    obtain ⟨r, hr⟩ := Option.isSome_iff_exists.mp
      (@loadPages_isSome f ph _ _ σ fr s (segmentFlags (f.field (ph % 2 ^ 64 + 4) 4)) hph
        ((segmentBounded_iff f _).mp hseg))
    rw [hr]
    dsimp only [Option.bind_some]
    split
    · rfl
    · rfl

theorem phdrBounded_of_plenty (h : loadSegment plenty f.inside ph highestEnd () ≠ none) :
    PhdrBounded f (ph % 2 ^ 64) ∧
      ∃ e, loadSegment plenty f.inside ph highestEnd () = some ((), some e) := by
  have hsize := f.size_lt
  unfold loadSegment at h ⊢
  rw [inside_field (by decide)] at h ⊢
  split at h
  next hfour =>
    rw [if_pos hfour]
    dsimp only [Option.bind_eq_bind, Option.bind_some] at h ⊢
    split at h
    next htype =>
      rw [if_pos htype]
      exact ⟨⟨hfour, fun hload => absurd hload htype⟩, _, rfl⟩
    next htype =>
      rw [if_neg htype]
      -- the last field that is read ends 48 bytes behind the start
      have hph : ph % 2 ^ 64 + 48 ≤ f.size := by
        by_contra hgt
        refine h ?_
        have hlast : f.inside.field (ph + 40) 8 = none := by
          rw [inside_field (by decide), if_neg (by omega)]
        rw [hlast]
        cases f.inside.field (ph + 4) 4 with
        | none => rfl
        | some flags =>
          cases f.inside.field (ph + 16) 8 with
          | none => rfl
          | some vaddr => rfl
      rw [inside_field_add (by omega) (by omega), inside_field_add (by omega) (by omega),
        inside_field_add (by omega) (by omega)] at h ⊢
      dsimp only [Option.bind_some] at h ⊢
      have hpages := pageBounded_of_plenty hph
        (n := (segmentEnd _ _ - pageAlignDown _) / pageSize)
        (fun hnone => h (by rw [hnone]; rfl))
      obtain ⟨hall, heq⟩ := hpages
      rw [heq]
      exact ⟨⟨hfour, fun _ => ⟨hph, (segmentBounded_iff f _).mpr hall⟩⟩, _, rfl⟩
  · exact absurd rfl h

theorem loadSegments_isSome (h : ∀ i < n, PhdrBounded f ((ph + i * phdrSize) % 2 ^ 64)) :
    (loadSegments fr f.inside n ph highestEnd s).isSome := by
  induction n generalizing ph highestEnd s with
  | zero => rfl
  | succ n ih =>
    have hfirst := h 0 (Nat.succ_pos n)
    rw [Nat.zero_mul, Nat.add_zero] at hfirst
    obtain ⟨r, hr⟩ := Option.isSome_iff_exists.mp
      (@loadSegment_isSome f ph σ fr s highestEnd hfirst)
    rw [loadSegments, hr]
    dsimp only [Option.bind_eq_bind, Option.bind_some]
    split
    · rfl
    · refine ih fun i hi => ?_
      have hnext := h (i + 1) (Nat.succ_lt_succ hi)
      rw [Nat.add_mul, Nat.one_mul] at hnext
      rw [Nat.add_assoc, Nat.add_comm phdrSize]
      exact hnext

theorem phdrsBounded_of_plenty (h : loadSegments plenty f.inside n ph highestEnd () ≠ none) :
    ∀ i < n, PhdrBounded f ((ph + i * phdrSize) % 2 ^ 64) := by
  induction n generalizing ph highestEnd with
  | zero => exact fun i hi => absurd hi (Nat.not_lt_zero i)
  | succ n ih =>
    rw [loadSegments] at h
    have hfirst := @phdrBounded_of_plenty f ph highestEnd fun hnone => h (by rw [hnone]; rfl)
    obtain ⟨hph, e, he⟩ := hfirst
    rw [he] at h
    intro i hi
    cases i with
    | zero =>
      rw [Nat.zero_mul, Nat.add_zero]
      exact hph
    | succ i =>
      have hnext := ih h i (Nat.lt_of_succ_lt_succ hi)
      rw [Nat.add_assoc, Nat.add_comm phdrSize] at hnext
      rw [Nat.add_mul, Nat.one_mul]
      exact hnext

end

/-! ## The whole file -/

section

variable {f : File}

/-- A field at a fixed place of the header. -/
theorem inside_header (f : File) (off n : Nat) (hoff : off < 2 ^ 64) (hn : 0 < n) :
    f.inside.field off n = if off + n ≤ f.size then some (f.field off n) else none := by
  rw [inside_field hn, Nat.mod_eq_of_lt hoff]

/-- The program headers and what stands before them lie in the file. -/
def PhdrsBounded (f : File) : Prop :=
  58 ≤ f.size ∧ ∀ i < f.field 56 2, PhdrBounded f ((f.field 32 8 + i * phdrSize) % 2 ^ 64)

/-- One check of the header: the field lies in the file and has the value `c`. -/
theorem check_cases {n v c : Nat} {rest : Option Bool} {P Q : Prop} (size : Nat)
    (h : (rest = none ∧ ¬P) ∨ (rest = some false ∧ P) ∨ (rest = some true ∧ (P ↔ Q))) :
    let r := (if n ≤ size then some v else none).bind fun x => if x ≠ c then some false else rest
    (r = none ∧ ¬(n ≤ size ∧ (v = c → P))) ∨ (r = some false ∧ n ≤ size ∧ (v = c → P)) ∨
      (r = some true ∧ (n ≤ size ∧ (v = c → P) ↔ Q)) := by
  by_cases hn : n ≤ size
  · by_cases hv : v = c
    · simpa [hn, hv] using h
    · simp [hn, hv]
  · simp [hn]

/-- The checks run into the end of the file, or refuse it, or accept it. -/
theorem header_cases (f : File) :
    (headerOk f.inside = none ∧ ¬Bounded f) ∨ (headerOk f.inside = some false ∧ Bounded f) ∨
      (headerOk f.inside = some true ∧ (Bounded f ↔ PhdrsBounded f)) := by
  unfold headerOk Bounded
  rw [inside_header f 0 4 (by decide) (by decide), inside_header f 4 1 (by decide) (by decide),
    inside_header f 5 1 (by decide) (by decide), inside_header f 16 2 (by decide) (by decide)]
  exact check_cases f.size (check_cases f.size (check_cases f.size (check_cases f.size
    (.inr (.inr ⟨rfl, Iff.rfl⟩)))))

theorem elfLoad_of_bounded {σ : Type} (fr : Frames σ) (s : σ) (h : Bounded f) :
    elfLoad fr (some f.inside) s ≠ none := by
  unfold elfLoad
  dsimp only
  rcases header_cases f with ⟨-, hnot⟩ | ⟨hok, -⟩ | ⟨hok, hiff⟩
  · exact absurd h hnot
  · rw [hok]
    exact Option.some_ne_none _
  · obtain ⟨h58, hall⟩ := hiff.mp h
    obtain ⟨r, hr⟩ := Option.isSome_iff_exists.mp
      (@loadSegments_isSome f (f.field 32 8) (f.field 56 2) σ fr s 0 hall)
    rw [hok]
    dsimp only [Option.bind_eq_bind, Option.bind_some]
    rw [if_neg (by decide), inside_header f 32 8 (by decide) (by decide),
      inside_header f 56 2 (by decide) (by decide), if_pos (by omega), if_pos h58]
    dsimp only [Option.bind_some]
    rw [hr]
    dsimp only [Option.bind_some]
    split
    · exact Option.some_ne_none _
    · rw [inside_header f 24 8 (by decide) (by decide), if_pos (by omega)]
      exact Option.some_ne_none _

theorem bounded_of_plenty (h : elfLoad plenty (some f.inside) () ≠ none) : Bounded f := by
  unfold elfLoad at h
  dsimp only at h
  rcases header_cases f with ⟨hok, -⟩ | ⟨-, hbounded⟩ | ⟨hok, hiff⟩
  · rw [hok] at h
    exact absurd rfl h
  · exact hbounded
  · refine hiff.mpr ?_
    rw [hok] at h
    dsimp only [Option.bind_eq_bind, Option.bind_some] at h
    rw [if_neg (by decide), inside_header f 32 8 (by decide) (by decide),
      inside_header f 56 2 (by decide) (by decide)] at h
    have h58 : 58 ≤ f.size := by
      by_contra hgt
      refine h ?_
      rw [if_neg hgt]
      split <;> rfl
    rw [if_pos (by omega), if_pos h58] at h
    dsimp only [Option.bind_some] at h
    exact ⟨h58, phdrsBounded_of_plenty fun hnone => h (by rw [hnone]; rfl)⟩

/-- The loader reads only the file exactly when all that its header leads to lies in it. -/
theorem elf_reads_inside_iff (f : File) : ReadsInside f ↔ Bounded f :=
  ⟨fun h => bounded_of_plenty (h Unit plenty ()), fun h _ fr s => elfLoad_of_bounded fr s h⟩

end

/-- A header, and one segment of one byte whose place in the file is behind its end. -/
def overreading : File where
  bytes off := ([(0, 0x7F#8), (1, 0x45#8), (2, 0x4C#8), (3, 0x46#8), (4, 2#8), (5, 1#8), (16, 2#8),
    (32, 64#8), (56, 1#8), (64, 1#8), (72, 120#8), (82, 0x40#8), (96, 1#8), (104, 1#8)].lookup
      off).getD 0#8
  size := 120
  size_lt := by decide

/-- The loader accepts the file, and reads the byte behind its end. -/
theorem overreading_accepted :
    elfLoad plenty (some overreading.memory) () = some ((), some (0, 0x401000)) ∧
      elfLoad plenty (some overreading.inside) () = none := by
  decide +kernel

/-- It is no file that the loader stays inside of. -/
theorem reads_behind_the_file : ¬ReadsInside overreading :=
  fun h => h Unit plenty () overreading_accepted.2

end Aeryk.Elf
