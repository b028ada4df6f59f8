import Aeryk.Pipe.Buffer

/-!
# Finding a boot module

The kernel looks for a boot module by the end of its path in two places.  `main.c` compares the
last `strlen(suffix)` bytes of a path with `memcmp` (`findModuleBySuffix`).  `font.c` goes
backwards through both strings with two pointers (`checkStringEndsWith`, `getFile`).

The backward loop tests for the start of the name between moving the pointers and comparing.  So it
never compares the first byte of the name, and with a name of one byte, or a path of none or one,
it goes on below the start.  A read outside a string has no answer here, and neither has the call.
-/

namespace Aeryk.Boot

open List

/-- The bytes of a C string, without the `NUL` at its end. -/
def CString := { s : List Byte // 0#8 ∉ s }

/-! ## The code -/

/-- The byte at a pointer, if it points into the string or to its `NUL`. -/
def byteAt (s : List Byte) (i : Int) : Option Byte :=
  if 0 ≤ i then (s ++ [0#8])[i.toNat]? else none

/-- A pointer is moved on to the `NUL`. -/
def scan (s : List Byte) : Nat → Int → Option Int
  | 0, _ => none
  | fuel + 1, i => do
    let c ← byteAt s i
    if c ≠ 0#8 then scan s fuel (i + 1) else some i

/-- The loop of `check_string_ends_with`.  It takes at most one turn more than `end` has bytes. -/
def compareBack (str end_ : List Byte) : Nat → Int → Int → Option Bool
  | 0, _, _ => none
  | fuel + 1, i, j => do
    let a ← byteAt str i
    let b ← byteAt end_ j
    if a ≠ b then some false
    else
      let i := i - 1
      let j := j - 1
      if j = 0 ∨ i = 0 ∧ j = 0 then some true
      else if i = 0 then some false
      else compareBack str end_ fuel i j

def checkStringEndsWith (str end_ : List Byte) : Option Bool := do
  let i ← scan str (str.length + 1) 0
  let j ← scan end_ (end_.length + 1) 0
  compareBack str end_ (end_.length + 1) (i - 1) (j - 1)

/-- The loop of both searches: the number of the first module that passes the test. -/
def searchModules (test : CString → Option Bool) : List CString → Option (Option Nat)
  | [] => some none
  | f :: modules => do
    if ← test f then some (some 0) else (searchModules test modules).map (·.map (· + 1))

def getFile (name : List Byte) : List CString → Option (Option Nat) :=
  searchModules fun f => checkStringEndsWith f.1 name

/-- `memcmp(path + start, suffix, n)`, from index `i` on. -/
def memcmp (path : List Byte) (start : Int) (suffix : List Byte) : Nat → Nat → Option Int
  | 0, _ => some 0
  | n + 1, i => do
    let a ← byteAt path (start + i)
    let b ← byteAt suffix i
    if a ≠ b then some (if a < b then -1 else 1) else memcmp path start suffix n (i + 1)

def findModuleBySuffix (modules : Option (List CString)) (suffix : List Byte) :
    Option (Option Nat) :=
  match modules with
  | none => some none
  | some modules => do
    let slen ← scan suffix (suffix.length + 1) 0
    modules |> searchModules fun mod => do
      let plen ← scan mod.1 (mod.1.length + 1) 0
      if slen ≤ plen then
        let r ← memcmp mod.1 (plen - slen) suffix slen.toNat 0
        some (r = 0)
      else some false

/-! ## Reading -/

section

variable {s e r q d d' : List Byte} {n : Nat}

theorem byteAt_neg {i : Int} (h : i < 0) : byteAt s i = none := if_neg (by omega)

theorem byteAt_length (s e : List Byte) : byteAt (s ++ e) s.length = some (e.headD 0#8) := by
  unfold byteAt
  rw [if_pos (Int.natCast_nonneg _), Int.toNat_natCast, append_assoc,
    getElem?_append_right (Nat.le_refl _), Nat.sub_self]
  cases e with
  | nil => rfl
  | cons a e => rfl

/-- The scan from behind `d` finds the end. -/
theorem scan_append (h : 0#8 ∉ s) (hn : s.length < n) :
    scan (d ++ s) n d.length = some ((d ++ s).length : Int) := by
  induction s generalizing d n with
  | nil =>
    obtain ⟨n, rfl⟩ := Nat.exists_eq_succ_of_ne_zero (Nat.ne_of_gt hn)
    rw [scan, byteAt_length, append_nil]
    rfl
  | cons c s ih =>
    obtain ⟨n, rfl⟩ := Nat.exists_eq_succ_of_ne_zero (Nat.ne_of_gt (Nat.zero_lt_of_lt hn))
    rw [mem_cons, not_or] at h
    have hrest := @ih (d ++ [c]) n h.2 (Nat.lt_of_succ_lt_succ hn)
    rw [append_assoc, singleton_append, length_append] at hrest
    rw [scan, byteAt_length]
    exact (if_pos (Ne.symm h.1)).trans hrest

theorem scan_eq (h : 0#8 ∉ s) : scan s (s.length + 1) 0 = some (s.length : Int) :=
  scan_append (d := []) h (Nat.lt_succ_self _)

/-! ## The backward loop -/

/-- The loop on what is left of the two strings, the last byte first. -/
def backwards : List Byte → List Byte → Option Bool
  | [], _ => none
  | _ :: _, [] => none
  | a :: r, b :: q =>
    if a ≠ b then some false
    else if q.length = 1 then some true
    else if r.length = 1 then some false
    else backwards r q

theorem compareBack_eq (hn : q.length < n) :
    compareBack (r.reverse ++ d) (q.reverse ++ d') n (r.length - 1) (q.length - 1) =
      backwards r q := by
  have hneg : ∀ l : List Byte, byteAt l (-1) = none := fun l => byteAt_neg (by decide)
  have hlast : ∀ (a : Byte) (r d : List Byte),
      byteAt (r.reverse ++ a :: d) r.length = some a := fun a r d => by
    rw [← length_reverse, byteAt_length]
    rfl
  induction n generalizing r q d d' with
  | zero => cases hn
  | succ n ih =>
    cases r with
    | nil => simp [compareBack, backwards, hneg]
    | cons a r =>
      cases q with
      | nil => simp [compareBack, backwards, hneg]
      | cons b q =>
        have hrest := @ih r q (a :: d) (b :: d') (Nat.lt_of_succ_lt_succ hn)
        have hone : ∀ l : List Byte, (l.length : Int) - 1 = 0 ↔ l.length = 1 := fun l => by omega
        have hboth : ∀ x y : Prop, x ∨ y ∧ x ↔ x := fun x y => or_iff_left_of_imp And.right
        simp [compareBack, backwards, hlast, hone, hboth, hrest]

theorem checkStringEndsWith_eq (hs : 0#8 ∉ s) (he : 0#8 ∉ e) :
    checkStringEndsWith s e = backwards s.reverse e.reverse := by
  have hloop := @compareBack_eq s.reverse e.reverse [] [] (e.length + 1) (by simp)
  simp only [reverse_reverse, append_nil, length_reverse] at hloop
  rw [checkStringEndsWith, scan_eq hs, scan_eq he]
  exact hloop

/-- With two bytes left in both strings the loop leaves out the first byte of the name. -/
theorem backwards_eq (hr : 2 ≤ r.length) (hq : 2 ≤ q.length) :
    backwards r q = some (decide (q.length ≤ r.length ∧ q.dropLast <+: r)) := by
  fun_induction backwards r q with
  | case1 => cases hr
  | case2 => cases hq
  | case3 a r b q hab =>
    cases q with
    | nil => simp at hq
    | cons c q => simp [cons_prefix_cons, Ne.symm hab]
  | case4 a r b q hab hq1 =>
    obtain ⟨c, rfl⟩ := length_eq_one_iff.mp hq1
    simp_all
  | case5 a r b q hab hq1 hr1 =>
    have hshort : ¬(b :: q).length ≤ (a :: r).length := by
      simp only [length_cons] at hq ⊢
      omega
    rw [decide_eq_false fun h => hshort h.1]
  | case6 a r b q hab hq1 hr1 ih =>
    simp only [length_cons] at hr hq ⊢
    have hne : q ≠ [] := ne_nil_of_length_pos (by omega)
    rw [ih (by omega) (by omega), dropLast_cons_of_ne_nil hne]
    simp [cons_prefix_cons, not_not.mp hab]

/-- The loop is right exactly where the strings are decided. -/
theorem backwards_right_iff (hq : q ≠ []) :
    backwards r q = some (decide (q <+: r)) ↔ r ≠ [] ∧ (r.head? ≠ q.head? ∨
      2 ≤ r.length ∧ 2 ≤ q.length ∧ (q.length ≤ r.length → q.dropLast <+: r → q <+: r)) := by
  cases q with
  | nil => exact absurd rfl hq
  | cons b q =>
    cases r with
    | nil => simp [backwards]
    | cons a r =>
      by_cases hab : a = b
      · subst hab
        by_cases hlong : 2 ≤ (a :: r).length ∧ 2 ≤ (a :: q).length
        · have hdrop : a :: q <+: a :: r → (a :: q).length ≤ (a :: r).length ∧
              (a :: q).dropLast <+: a :: r := fun h =>
            ⟨h.length_le, ( dropLast_prefix _).trans h⟩
          rw [backwards_eq hlong.1 hlong.2, Option.some.injEq, decide_eq_decide]
          simp only [ne_eq, reduceCtorEq, not_false_eq_true, head?_cons, not_true, false_or,
            hlong.1, hlong.2, true_and]
          exact ⟨fun h hlen hpre => h.mp ⟨hlen, hpre⟩, fun h => ⟨fun hd => h hd.1 hd.2, hdrop⟩⟩
        · cases q with
          | nil => cases r <;> simp [backwards]
          | cons c q =>
            have hr : r = [] := by simpa using hlong
            simp [hr, backwards]
      · simp [backwards, hab, cons_prefix_cons, Ne.symm hab]

/-! ## When the loop is right -/

/-- The loop comes to an end inside the strings, and its answer is right: the last bytes differ,
or there are two bytes at least in both strings, and if the path ends with the name without its
first byte, then it ends with the name. -/
def Decided (path name : List Byte) : Prop :=
  path ≠ [] ∧ (path.getLast? ≠ name.getLast? ∨
    2 ≤ path.length ∧ 2 ≤ name.length ∧
      (name.length ≤ path.length → name.tail <:+ path → name <:+ path))

instance Decided.decidable (path name : List Byte) : Decidable (Decided path name) :=
  inferInstanceAs (Decidable (_ ∧ _))

theorem check_right_iff (hs : 0#8 ∉ s) (he : 0#8 ∉ e) (hne : e ≠ []) :
    checkStringEndsWith s e = some (decide (e <:+ s)) ↔ Decided s e := by
  have hback := @backwards_right_iff s.reverse e.reverse (reverse_ne_nil_iff.mpr hne)
  simp only [dropLast_reverse, reverse_prefix, reverse_ne_nil_iff, head?_reverse,
    length_reverse] at hback
  rw [checkStringEndsWith_eq hs he]
  exact hback

end

/-! ## The two searches -/

section

variable {name : List Byte}

/-- The first module whose path ends with the name. -/
def firstEndingWith (name : List Byte) (modules : List CString) : Option Nat :=
  modules.findIdx? fun f => name <:+ f.1

/-- The paths up to the first that ends with the name, and that one. -/
def upToMatch (name : List Byte) (modules : List CString) : List CString :=
  modules.take (modules.findIdx (fun f => name <:+ f.1) + 1)

/-- A search is right exactly if its test is right for every path it has to try. -/
theorem searchModules_right_iff (test : CString → Option Bool) (modules : List CString) :
    searchModules test modules = some (firstEndingWith name modules) ↔
      ∀ f ∈ upToMatch name modules, test f = some (decide (name <:+ f.1)) := by
  induction modules with
  | nil => simp [searchModules, firstEndingWith, upToMatch]
  | cons f modules ih =>
    unfold firstEndingWith upToMatch at ih ⊢
    rw [searchModules, findIdx?_cons, findIdx_cons]
    have hmap : ∀ a o : Option Nat, a.map (· + 1) = o.map (· + 1) ↔ a = o := fun a o =>
      (Option.map_injective (add_left_injective 1)).eq_iff
    rcases ht : test f with _ | _ | _
    all_goals by_cases hend : name <:+ f.1
    all_goals simp [hend, ht, ← ih, hmap]

/-- `memcmp` of two blocks of one length finds out whether they are equal. -/
theorem memcmp_spec {d t u e : List Byte} {o : Int} (hstart : (d.length : Int) = o + u.length)
    (hlen : t.length = e.length) :
    ∃ r, memcmp (d ++ t) o (u ++ e) e.length u.length = some r ∧ (r = 0 ↔ t = e) := by
  induction e generalizing d t u with
  | nil => exact ⟨0, rfl, iff_of_true rfl (length_eq_zero_iff.mp hlen)⟩
  | cons b e ih =>
    cases t with
    | nil => cases hlen
    | cons a t =>
      rw [length_cons, memcmp, ← hstart, byteAt_length, byteAt_length]
      change ∃ r, (if a ≠ b then _ else _) = _ ∧ _
      by_cases hab : a = b
      · have hrest := @ih (d ++ [a]) t (u ++ [b]) (by simp; omega) (Nat.succ.inj hlen)
        rw [append_assoc, append_assoc, length_append] at hrest
        simpa [hab] using hrest
      · refine ⟨if a < b then -1 else 1, if_pos hab, iff_of_false ?_ fun h => hab ?_⟩
        · split <;> decide
        · exact (cons.inj h).1

/-- `find_module_by_suffix` finds the module and reads nothing outside the strings. -/
theorem findModuleBySuffix_eq (hname : 0#8 ∉ name) (modules : List CString) :
    findModuleBySuffix (some modules) name = some (firstEndingWith name modules) := by
  rw [findModuleBySuffix, scan_eq hname]
  refine (searchModules_right_iff _ modules).mpr fun f _ => ?_
  rw [scan_eq f.2]
  change (if (name.length : Int) ≤ f.1.length then _ else _) = _
  split
  next hlen =>
    have hpath := take_append_drop (f.1.length - name.length) f.1
    obtain ⟨r, hr, hiff⟩ := @memcmp_spec (f.1.take (f.1.length - name.length))
      (f.1.drop (f.1.length - name.length)) [] name (f.1.length - name.length)
      (by rw [length_take, length_nil]; omega) (by rw [length_drop]; omega)
    rw [hpath, nil_append, length_nil] at hr
    rw [Int.toNat_natCast, hr]
    refine congrArg some (decide_eq_decide.mpr (hiff.trans ?_))
    rw [suffix_iff_eq_drop, eq_comm]
  next hlen => rw [decide_eq_false fun h => hlen (Int.ofNat_le.mpr h.length_le)]

/-- Both searches find the first module whose path ends with the name, and read nothing outside
the strings. -/
def FindersAgree (name : List Byte) (modules : List CString) : Prop :=
  getFile name modules = some (firstEndingWith name modules) ∧
    findModuleBySuffix (some modules) name = some (firstEndingWith name modules)

/-- The searches agree exactly if every path up to the match is decided. -/
theorem module_finders_agree_iff (name : CString) (modules : List CString) (hne : name.1 ≠ []) :
    FindersAgree name.1 modules ↔ ∀ f ∈ upToMatch name.1 modules, Decided f.1 name.1 := by
  rw [FindersAgree, and_iff_left (findModuleBySuffix_eq name.2 modules), getFile,
    searchModules_right_iff]
  exact forall₂_congr fun f _ => check_right_iff f.2 name.2 hne

/-- The module `ab` is found for the name `cb`. -/
theorem other_module_found :
    ¬FindersAgree [0x63#8, 0x62#8] [⟨[0x61#8, 0x62#8], by decide⟩] := by
  unfold FindersAgree
  decide

/-- The module `xcb` is found for the name `cb`, behind one with another end. -/
theorem module_finders_agree_iff_second :
    FindersAgree [0x63#8, 0x62#8]
      [⟨[0x61#8], by decide⟩, ⟨[0x78#8, 0x63#8, 0x62#8], by decide⟩] :=
  (module_finders_agree_iff ⟨[0x63#8, 0x62#8], by decide⟩ _ (by decide)).mpr (by decide)

end

end Aeryk.Boot
