import Aeryk.Fs.Vfs
import Aeryk.Lib.Texts

/-!
# Looking up a path, byte by byte

`vfs_find_node` and `strncmp_path` with pointers into the path and into the names.  A string is
read up to and including its `NUL`; a read behind it has no answer here, and neither has the call
(`charAt`).

The path may have slashes at its start and its end and several of them in a row.  What is found is
what the components between the slashes lead to, each time to the first child of that name.  The
pointers are first shown to do what `Vfs.vfsFindNode` does with the rest of the path as a list.
-/

namespace Aeryk.Fs

open List Lib

/-! ## The code -/

/-- The byte of a string, the `NUL` at its end included. -/
def charAt (s : List Byte) (i : Nat) : Option Byte := (s ++ [0#8])[i]?

/-- `strncmp_path`, from index `i` of the first string and `j` of the second on. -/
def strncmpAt (s1 s2 : List Byte) : Nat → Nat → Nat → Option Int
  | _, _, 0 => some 0
  | i, j, n + 1 => do
    let a ← charAt s1 i
    let b ← charAt s2 j
    if a ≠ 0#8 ∧ a = b then strncmpAt s1 s2 (i + 1) (j + 1) n else some (a.toInt - b.toInt)

def skipSlashes (path : List Byte) : Nat → Nat → Option Nat
  | 0, _ => none
  | fuel + 1, i => do
    let c ← charAt path i
    if c = slash then skipSlashes path fuel (i + 1) else some i

def nextSlash (path : List Byte) : Nat → Nat → Option Nat
  | 0, _ => none
  | fuel + 1, i => do
    let c ← charAt path i
    if c ≠ 0#8 ∧ c ≠ slash then nextSlash path fuel (i + 1) else some i

namespace Vfs

def findChildAt (s : Vfs) (path : List Byte) (pos len : Nat) :
    Nat → Option Nat → Option (Option Nat)
  | 0, _ => none
  | _ + 1, none => some none
  | fuel + 1, some child => do
    let r ← strncmpAt (s.nodes child).name path 0 pos len
    if r = 0 then
      let c ← charAt (s.nodes child).name len
      if c = 0#8 then some (some child)
      else s.findChildAt path pos len fuel (s.nodes child).next
    else s.findChildAt path pos len fuel (s.nodes child).next

/-- `vfs_find_node`, with the path from index `pos` on. -/
def findNodeAt (s : Vfs) (path : List Byte) : Nat → Nat → Nat → Option (Option Nat)
  | 0, _, _ => none
  | fuel + 1, parent, pos => do
    let c ← charAt path pos
    if c = 0#8 then some (some parent)
    else
      let pos ← skipSlashes path (path.length + 1) pos
      let c ← charAt path pos
      if c = 0#8 then some (some parent)
      else
        let next ← nextSlash path (path.length + 1) pos
        let d ← charAt path next
        let rest := if d = slash then next + 1 else next
        let child ← s.findChildAt path pos (next - pos) (s.fresh + 1) (s.nodes parent).children
        match child with
        | none => some none
        | some child => s.findNodeAt path fuel child rest

end Vfs

/-! ## Pointers and lists -/

section

variable {s : Vfs} {pre r path name : List Byte} {n len fuel : Nat}

/-- At the start of the rest of a string stands its first byte, or the `NUL`. -/
theorem charAt_append (pre r : List Byte) : charAt (pre ++ r) pre.length = some (r.headD 0#8) := by
  unfold charAt
  rw [append_assoc, getElem?_append_right (Nat.le_refl _), Nat.sub_self]
  cases r with
  | nil => rfl
  | cons c r => rfl

/-- `strncmp_path` stops at the end of the first string at the latest. -/
theorem strncmpAt_eq (pre₁ pre₂ r₁ r₂ : List Byte) (len : Nat) :
    strncmpAt (pre₁ ++ r₁) (pre₂ ++ r₂) pre₁.length pre₂.length len =
      some (strncmpPath r₁ r₂ len) := by
  induction len generalizing pre₁ pre₂ r₁ r₂ with
  | zero => rfl
  | succ len ih =>
    rw [strncmpAt, strncmpPath, charAt_append, charAt_append]
    dsimp only [Option.bind_eq_bind, Option.bind_some]
    split
    next hc =>
      cases r₁ with
      | nil => exact absurd rfl hc.1
      | cons a r₁ =>
        cases r₂ with
        | nil => exact absurd hc.2 hc.1
        | cons b r₂ =>
          have h := ih (pre₁ ++ [a]) (pre₂ ++ [b]) r₁ r₂
          rw [append_assoc, append_assoc, length_append,
            length_append] at h
          exact h
    · rfl

theorem skipSlashes_eq (pre : List Byte) (hfuel : r.length < fuel) :
    ∃ pre', skipSlashes (pre ++ r) fuel pre.length = some pre'.length ∧
      pre ++ r = pre' ++ r.dropWhile (· = slash) := by
  induction r generalizing pre fuel with
  | nil =>
    obtain ⟨fuel, rfl⟩ : ∃ k, fuel = k + 1 := ⟨fuel - 1, by omega⟩
    refine ⟨pre, ?_, rfl⟩
    rw [skipSlashes, charAt_append]
    rfl
  | cons c r ih =>
    obtain ⟨fuel, rfl⟩ : ∃ k, fuel = k + 1 := ⟨fuel - 1, by omega⟩
    rw [skipSlashes, charAt_append]
    dsimp only [Option.bind_eq_bind, Option.bind_some, headD_cons]
    by_cases hc : c = slash
    · have h := ih (pre ++ [c]) (Nat.lt_of_succ_lt_succ hfuel)
      rw [append_assoc, length_append] at h
      obtain ⟨pre', heq, hsplit⟩ := h
      refine ⟨pre', ?_, ?_⟩
      · rw [if_pos hc]
        exact heq
      · rw [dropWhile_cons_of_pos (by simpa using hc)]
        exact hsplit
    · refine ⟨pre, if_neg hc, ?_⟩
      rw [dropWhile_cons_of_neg (by simpa using hc)]

theorem nextSlash_eq (pre : List Byte) (hnul : 0#8 ∉ r) (hfuel : r.length < fuel) :
    nextSlash (pre ++ r) fuel pre.length =
      some (pre.length + (r.takeWhile (· ≠ slash)).length) := by
  induction r generalizing pre fuel with
  | nil =>
    obtain ⟨fuel, rfl⟩ : ∃ k, fuel = k + 1 := ⟨fuel - 1, by omega⟩
    rw [nextSlash, charAt_append]
    rfl
  | cons c r ih =>
    obtain ⟨fuel, rfl⟩ : ∃ k, fuel = k + 1 := ⟨fuel - 1, by omega⟩
    have hc : c ≠ 0#8 := fun h => hnul (h ▸ mem_cons_self)
    rw [nextSlash, charAt_append]
    dsimp only [Option.bind_eq_bind, Option.bind_some, headD_cons]
    by_cases hs : c = slash
    · rw [if_neg fun h => h.2 hs, takeWhile_cons_of_neg (by simpa using hs)]
      rfl
    · have h := ih (pre ++ [c]) (fun h => hnul (mem_cons_of_mem c h))
        (Nat.lt_of_succ_lt_succ hfuel)
      rw [append_assoc, length_append] at h
      rw [if_pos ⟨hc, hs⟩, takeWhile_cons_of_pos (by simpa using hs), length_cons]
      rw [Nat.add_right_comm] at h
      exact h

/-- Where the names agree up to `len`, the first is as long as that. -/
theorem le_of_strncmpPath (hnul : 0#8 ∉ r) (hlen : len ≤ r.length)
    (h : strncmpPath name r len = 0) : len ≤ name.length := by
  induction len generalizing name r with
  | zero => exact Nat.zero_le _
  | succ len ih =>
    cases r with
    | nil => cases hlen
    | cons b r =>
      have hb : b ≠ 0#8 := fun hc => hnul (hc ▸ mem_cons_self)
      rw [strncmpPath] at h
      cases name with
      | nil =>
        simp only [headD_nil, ne_eq, not_true_eq_false, false_and, if_false] at h
        have hzero : b.toInt = 0 := by
          simpa using h
        exact absurd (BitVec.toInt_inj.mp hzero) hb
      | cons a name =>
        split at h
        · have hrest := ih (fun hc => hnul (mem_cons_of_mem b hc))
            (Nat.le_of_succ_le_succ hlen) h
          exact Nat.succ_le_succ hrest
        next hab =>
          have heq : a = b := BitVec.toInt_inj.mp (Int.sub_eq_zero.mp h)
          exact absurd ⟨heq ▸ hb, heq⟩ hab

theorem charAt_getD (h : len ≤ name.length) : charAt name len = some (name.getD len 0#8) := by
  unfold charAt
  rcases Nat.lt_or_eq_of_le h with hlt | rfl
  · rw [getElem?_append_left hlt, getD_eq_getElem?_getD,
      getElem?_eq_getElem hlt]
    rfl
  · simp

/-- The loop over the children, with a pointer to the rest of the path. -/
theorem findChildAt_eq {start : Option Nat} (hnul : 0#8 ∉ r) (hlen : len ≤ r.length) :
    s.findChildAt (pre ++ r) pre.length len fuel start = s.findChild r len fuel start := by
  induction fuel generalizing start with
  | zero => rfl
  | succ fuel ih =>
    cases start with
    | none => rfl
    | some child =>
      have hcmp := strncmpAt_eq [] pre (s.nodes child).name r len
      rw [nil_append, length_nil] at hcmp
      rw [Vfs.findChildAt, Vfs.findChild, hcmp, ih]
      dsimp only [Option.bind_eq_bind, Option.bind_some]
      unfold matches?
      by_cases hzero : strncmpPath (s.nodes child).name r len = 0
      · rw [if_pos hzero, charAt_getD (le_of_strncmpPath hnul hlen hzero)]
        simp only [Option.bind_some, hzero, decide_true, Bool.true_and, decide_eq_true_eq]
      · simp [hzero]

/-- Behind the slashes stands nothing more, or a segment. -/
theorem segment_cases (hnul : 0#8 ∉ r) :
    r.dropWhile (· = slash) = [] ∨ ∃ c t, Segment c ∧ Ends t ∧
      r.dropWhile (· = slash) = c ++ t ∧ t.tail.length < r.length := by
  have hle := length_dropWhile_le (· = slash) r
  have hsub : ∀ b ∈ r.dropWhile (· = slash), b ∈ r :=
    fun b hb => (dropWhile_suffix _).subset hb
  have hhead := head?_dropWhile_not (· = slash) r
  generalize hd : r.dropWhile (· = slash) = d at hle hsub hhead ⊢
  cases d with
  | nil => exact .inl rfl
  | cons b d =>
    have hb : b ≠ slash := by simpa using hhead
    refine .inr ⟨(b :: d).takeWhile (· ≠ slash), (b :: d).dropWhile (· ≠ slash), ?_, ?_,
      takeWhile_append_dropWhile.symm, ?_⟩
    · refine ⟨?_, ?_, ?_⟩
      · rw [takeWhile_cons_of_pos (by simpa using hb)]
        exact cons_ne_nil _ _
      · intro h
        simpa using mem_takeWhile_imp h
      · intro h
        exact hnul (hsub _ (( takeWhile_prefix _).subset h))
    · have hnext := head?_dropWhile_not (· ≠ slash) (b :: d)
      generalize (b :: d).dropWhile (· ≠ slash) = t at hnext ⊢
      cases t with
      | nil => exact .inl rfl
      | cons e t =>
        have he : e = slash := by simpa using hnext
        exact .inr ⟨t, he ▸ rfl⟩
    · have hshort := length_dropWhile_le (· ≠ slash) d
      rw [dropWhile_cons_of_pos (by simpa using hb), length_tail]
      rw [length_cons] at hle
      omega

/-- Where the path is at its end, or has nothing but slashes left. -/
theorem vfsFindNode_slashes (h : r.dropWhile (· = slash) = []) :
    s.vfsFindNode n r = some (some n) := by
  rw [Vfs.vfsFindNode]
  split
  · rfl
  next heq =>
    rw [h] at heq
    cases heq

/-- Slashes at the start do not matter. -/
theorem vfsFindNode_dropWhile (s : Vfs) (n : Nat) (r : List Byte) :
    s.vfsFindNode n (r.dropWhile (· = slash)) = s.vfsFindNode n r := by
  have hidem := dropWhile_idempotent (· = slash) r
  rw [Vfs.vfsFindNode.eq_def s n (r.dropWhile _), Vfs.vfsFindNode.eq_def s n r]
  split
  next heq =>
    rw [hidem] at heq
    split
    · rfl
    next heq' =>
      rw [heq] at heq'
      cases heq'
  next heq =>
    rw [hidem] at heq
    split
    next heq' =>
      rw [heq] at heq'
      cases heq'
    next heq' =>
      rw [heq] at heq'
      cases heq'
      rfl

/-- The pointer behind a segment and the slash after it. -/
theorem rest_eq (pre c : List Byte) {t : List Byte} (ht : Ends t) :
    ∃ pre', (if t.headD 0#8 = slash then (pre ++ c).length + 1 else (pre ++ c).length) =
      pre'.length ∧ (pre ++ c) ++ t = pre' ++ t.tail := by
  rcases ht with rfl | ⟨u, rfl⟩
  · exact ⟨pre ++ c, rfl, rfl⟩
  · refine ⟨(pre ++ c) ++ [slash], ?_, ?_⟩
    · rw [headD_cons, if_pos rfl, ← length_concat (a := slash),
        concat_eq_append]
    · rw [append_assoc (pre ++ c)]
      rfl

/-- `vfs_find_node` with a pointer into the path does what it does with the rest. -/
theorem findNodeAt_eq (pre : List Byte) (hnul : 0#8 ∉ r) (hfuel : r.length < fuel) :
    s.findNodeAt (pre ++ r) fuel n pre.length = s.vfsFindNode n r := by
  induction fuel generalizing pre r n with
  | zero => cases hfuel
  | succ fuel ih =>
    have hlen : r.length < (pre ++ r).length + 1 := by
      rw [length_append]
      omega
    obtain ⟨pre', hskip, hsplit⟩ := skipSlashes_eq pre hlen
    rw [Vfs.findNodeAt, charAt_append]
    dsimp only [Option.bind_eq_bind, Option.bind_some]
    split
    next hnil =>
      have hr : r = [] := by
        cases r with
        | nil => rfl
        | cons b r => exact absurd (hnil ▸ mem_cons_self) hnul
      rw [vfsFindNode_slashes (by rw [hr]; rfl)]
    · rw [hskip, ← vfsFindNode_dropWhile, hsplit]
      dsimp only [Option.bind_some]
      rw [charAt_append]
      dsimp only [Option.bind_some]
      rcases segment_cases hnul with hd | ⟨c, t, hc, ht, hd, hlt⟩
      · rw [hd, vfsFindNode_slashes rfl]
        rfl
      · have hnul' : 0#8 ∉ c ++ t := hd ▸ fun hmem =>
          hnul ((dropWhile_suffix _).subset hmem)
        have hfirst : (c ++ t).headD 0#8 ≠ 0#8 := by
          cases c with
          | nil => exact absurd rfl hc.ne_nil
          | cons b c => exact fun hb => hc.nul (hb ▸ mem_cons_self)
        have hlen' : (c ++ t).length < (pre' ++ (c ++ t)).length + 1 := by
          have hle := (suffix_append pre' (c ++ t)).length_le
          omega
        rw [hd, if_neg hfirst, nextSlash_eq pre' hnul' hlen', (takeWhile_segment hc.slash ht).1]
        dsimp only [Option.bind_some]
        rw [Nat.add_sub_cancel_left, findChildAt_eq hnul' (by simp), ← append_assoc,
          ← length_append, charAt_append, vfsFindNode_segment hc ht]
        dsimp only [Option.bind_some]
        obtain ⟨pre'', hrest, hsplit'⟩ := rest_eq pre' c ht
        rw [hrest, hsplit']
        cases s.findChild (c ++ t) c.length (s.fresh + 1) (s.nodes n).children with
        | none => rfl
        | some child =>
          cases child with
          | none => rfl
          | some child =>
            refine ih _ (fun hmem => hnul' ?_) (by omega)
            exact mem_append_right c (mem_of_mem_tail hmem)

/-! ## Components -/

/-- The components of a path: what stands between slashes and is not empty. -/
def components (path : List Byte) : List (List Byte) := (path.splitOn slash).filter (· ≠ [])

theorem components_dropWhile (r : List Byte) :
    components (r.dropWhile (· = slash)) = components r := pieces_dropWhile slash r

theorem components_segment {c : List Byte} (hc : Segment c) (hr : Ends r) :
    components (c ++ r) = c :: components r.tail := by
  rcases hr with rfl | ⟨t, rfl⟩
  · rw [append_nil]
    exact pieces_single hc.ne_nil hc.slash
  · exact pieces_append_cons hc.ne_nil hc.slash t

/-! ## What is found -/

/-- `vfs_find_node` goes from child to child along the components. -/
theorem Linked.find {kids : Nat → List Nat} (h : Linked s kids) (hn : n < s.fresh)
    (hnul : 0#8 ∉ path) :
    s.vfsFindNode n path = some (lookup kids s.nameOf n (components path)) := by
  generalize hlen : path.length = len
  induction len using Nat.strong_induction_on generalizing path n with
  | _ len ih =>
    rw [← vfsFindNode_dropWhile, ← components_dropWhile]
    rcases segment_cases hnul with hd | ⟨c, t, hc, ht, hd, hlt⟩
    · rw [hd, vfsFindNode_slashes rfl, components, splitOn_nil, filter_cons_of_neg (by simp)]
      exact congrArg some (Lib.lookup_nil ..).symm
    · have hnul' : 0#8 ∉ t.tail := fun hmem => hnul ((dropWhile_suffix _).subset
        (hd ▸ mem_append_right c (mem_of_mem_tail hmem)))
      rw [hd, vfsFindNode_segment hc ht, h.findChild hn hc, components_segment hc ht,
        Lib.lookup_cons]
      cases hk : (kids n).find? fun k => decide (s.nameOf k = c) with
      | none => rfl
      | some k =>
        have hmem := mem_of_find?_eq_some hk
        exact ih t.tail.length (by omega) (h.bound n k hmem).2 hnul' rfl

/-- `vfs_find_node` reads no byte behind the end of the path or of a name, ends, and returns what
the components of the path lead to. -/
theorem vfs_find_node_resolves {kids : Nat → List Nat} (h : Linked s kids) (hn : n < s.fresh)
    (hnul : 0#8 ∉ path) :
    s.findNodeAt path (path.length + 1) n 0 =
      some (lookup kids s.nameOf n (components path)) := by
  have heq := findNodeAt_eq (s := s) (n := n) [] hnul (Nat.lt_succ_self _)
  rw [nil_append, length_nil] at heq
  rw [heq, h.find hn hnul]

/-- A root with the children `a` and `ab`, in this order. -/
def smallTree : Vfs where
  nodes i :=
    if i = 0 then ⟨[], .directory, 0, 0, none, some 2, none⟩
    else if i = 1 then ⟨[0x61#8, 0x62#8], .file, 0, 0, some 0, none, none⟩
    else ⟨[0x61#8], .file, 0, 0, some 0, none, some 1⟩
  fresh := 3
  root := 0

theorem linked_smallTree : Linked smallTree fun n => if n = 0 then [2, 1] else [] := by
  refine ⟨?_, ?_, ?_⟩
  · intro n hn
    have hcases : n = 0 ∨ n = 1 ∨ n = 2 := by
      have : n < 3 := hn
      omega
    rcases hcases with rfl | rfl | rfl
    · exact ⟨rfl, rfl, rfl⟩
    · rfl
    · rfl
  · intro n k hk
    split at hk
    next hn =>
      rw [hn]
      fin_cases hk <;> decide
    · cases hk
  · intro n k hk
    split at hk
    · fin_cases hk <;> decide
    · cases hk

/-- The path is `"//ab/"`. -/
theorem vfs_find_node_resolves_smallTree :
    smallTree.findNodeAt [slash, slash, 0x61#8, 0x62#8, slash] 6 0 0 = some (some 1) :=
  vfs_find_node_resolves linked_smallTree (by decide) (by decide)

end

end Aeryk.Fs
