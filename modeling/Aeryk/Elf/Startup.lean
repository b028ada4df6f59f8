import Aeryk.Elf.Args
import Aeryk.Lib.Packing

/-!
# The arguments as a program finds them

What `setup_user_stack_args` writes is read back by `_start` of `crt0.asm`, which pops `argc` and
`argv` off the stack, and by the program, which follows the pointers.  The strings come from
`copy_argv_from_user`.

`StringsAt` describes the strings as the loop leaves them: each ends where the one before begins,
and what is written afterwards, the array and the pair, lies below all of them.
-/

namespace Aeryk.Elf

open List Mem Lib

/-! ## The other side -/

/-- Memory as the program sees it: the page stands at `base`, and nothing else is looked at. -/
def userView (mem : Nat → Byte) (hhdm base : Nat) : Nat → Byte := fun a =>
  if base ≤ a ∧ a < base + pageSize then mem (hhdm + (a - base)) else 0#8

def readWord (view : Nat → Byte) (a : Nat) : Nat := pack (fun k => view (a + k)) 8

/-- The string at an address, of at most `n` bytes. -/
def cString (view : Nat → Byte) : Nat → Nat → List Byte
  | 0, _ => []
  | n + 1, a => if view a = 0#8 then [] else view a :: cString view n (a + 1)

/-- What `_start` passes to `main`: the number of arguments and the address of the array. -/
def start (view : Nat → Byte) (rsp : Nat) : Nat × Nat :=
  (readWord view rsp, readWord view (rsp + 8))

def maxArgLen : Nat := 128

/-- The inner loop of `copy_argv_from_user`: at most `n` characters from `user_str[i]` on. -/
def copyString (userStr : Nat → Byte) : Nat → Nat → List Byte
  | 0, _ => []
  | n + 1, i => if userStr i = 0#8 then [] else userStr i :: copyString userStr n (i + 1)

/-- The outer loop, for at most `n` arguments from `user_argv[argc]` on. -/
def copyStrings (userArgv : Nat → Option (Nat → Byte)) : Nat → Nat → List (List Byte)
  | 0, _ => []
  | n + 1, argc =>
    match userArgv argc with
    | none => []
    | some userStr => copyString userStr (maxArgLen - 1) 0 :: copyStrings userArgv n (argc + 1)

/-- `copy_argv_from_user`: the strings it copies.  A null pointer is `none`. -/
def copyArgvFromUser (userArgv : Option (Nat → Option (Nat → Byte))) : List (List Byte) :=
  match userArgv with
  | none => []
  | some userArgv => copyStrings userArgv maxUserArgs 0

/-! ## Bytes at an address -/

/-- The bytes stand at an address. -/
def Holds (view : Nat → Byte) (a : Nat) (bytes : List Byte) : Prop :=
  ∀ k, (h : k < bytes.length) → view (a + k) = bytes[k]

section

variable {view : Nat → Byte} {a a' : Nat} {bytes bytes' : List Byte}

theorem storeBytes_of_not_mem {x : Nat} (h : x < a ∨ a + bytes.length ≤ x) :
    storeBytes view a bytes x = view x := if_neg (by omega)

theorem holds_storeBytes (view : Nat → Byte) (a : Nat) (bytes : List Byte) :
    Holds (storeBytes view a bytes) a bytes := by
  intro k hk
  rw [storeBytes, if_pos (by omega), Nat.add_sub_cancel_left, getD_eq_getElem _ _ hk]

/-- A store apart from the bytes leaves them. -/
theorem Holds.storeBytes (h : Holds view a bytes)
    (hapart : a' + bytes'.length ≤ a ∨ a + bytes.length ≤ a') :
    Holds (storeBytes view a' bytes') a bytes := by
  intro k hk
  rw [storeBytes_of_not_mem (by omega)]
  exact h k hk

theorem Holds.congr {view' : Nat → Byte} (h : Holds view a bytes)
    (heq : ∀ x, a ≤ x → x < a + bytes.length → view' x = view x) : Holds view' a bytes := by
  intro k hk
  rw [heq (a + k) (by omega) (by omega)]
  exact h k hk

theorem Holds.left (h : Holds view a (bytes ++ bytes')) : Holds view a bytes := by
  intro k hk
  rw [h k (by simp; omega), getElem_append_left hk]

theorem Holds.right (h : Holds view a (bytes ++ bytes')) :
    Holds view (a + bytes.length) bytes' := by
  intro k hk
  rw [Nat.add_assoc, h (bytes.length + k) (by simp; omega)]
  simp

/-- A string that holds no terminator is read back up to its own. -/
theorem cString_of_holds {n : Nat} (h : Holds view a (bytes ++ [0#8])) (hnul : 0#8 ∉ bytes)
    (hn : bytes.length < n) : cString view n a = bytes := by
  induction bytes generalizing n a with
  | nil =>
    obtain ⟨n, rfl⟩ := Nat.exists_eq_succ_of_ne_zero (Nat.ne_of_gt hn)
    have hfirst : view a = 0#8 := h 0 (by simp)
    rw [cString, if_pos hfirst]
  | cons b bytes ih =>
    obtain ⟨n, rfl⟩ := Nat.exists_eq_succ_of_ne_zero (Nat.ne_of_gt (Nat.zero_lt_of_lt hn))
    rw [mem_cons, not_or] at hnul
    have hfirst : view a = b := h 0 (by simp)
    have hsplit : Holds view a ([b] ++ (bytes ++ [0#8])) := h
    have hrest : Holds view (a + 1) (bytes ++ [0#8]) := hsplit.right
    rw [cString, hfirst, if_neg (Ne.symm hnul.1), ih hrest hnul.2 (Nat.lt_of_succ_lt_succ hn)]

@[simp] theorem length_wordBytes (v : Nat) : (wordBytes v).length = 8 := by simp [wordBytes]

theorem readWord_of_holds {v : Nat} (h : Holds view a (wordBytes v)) (hv : v < 2 ^ 64) :
    readWord view a = v := by
  have hbytes : readWord view a = pack (fun k => BitVec.ofNat 8 (v / 256 ^ k)) 8 := by
    apply pack_congr
    intro k hk
    rw [h k (by simpa using hk)]
    simp [wordBytes]
  rw [hbytes, pack_bytes]
  exact Nat.mod_eq_of_lt hv

@[simp] theorem length_flatMap_wordBytes (vs : List Nat) :
    (vs.flatMap wordBytes).length = 8 * vs.length := by
  induction vs with
  | nil => rfl
  | cons v vs ih =>
    rw [flatMap_cons, length_append, ih, length_wordBytes, length_cons]
    omega

/-- An array of words is read back. -/
theorem holds_word {vs : List Nat} (h : Holds view a (vs.flatMap wordBytes)) {j : Nat}
    (hj : j < vs.length) : Holds view (a + 8 * j) (wordBytes vs[j]) := by
  induction vs generalizing a j with
  | nil => exact absurd hj (Nat.not_lt_zero j)
  | cons v vs ih =>
    rw [flatMap_cons] at h
    cases j with
    | zero => exact h.left
    | succ j =>
      have hrest := h.right
      rw [length_wordBytes] at hrest
      have hword := ih hrest (Nat.lt_of_succ_lt_succ hj)
      rw [show a + 8 * (j + 1) = a + 8 + 8 * j by omega]
      exact hword

/-- A store inside the page, as the program sees it. -/
theorem userView_storeBytes {mem : Nat → Byte} {hhdm base : Nat} (hbase : base ≤ a)
    (hend : a + bytes.length ≤ base + pageSize) :
    userView (storeBytes mem (hhdm + (a - base)) bytes) hhdm base =
      storeBytes (userView mem hhdm base) a bytes := by
  funext x
  unfold userView storeBytes
  by_cases hx : a ≤ x ∧ x < a + bytes.length
  · rw [if_pos (by omega), if_pos (by omega), if_pos hx,
      show hhdm + (x - base) - (hhdm + (a - base)) = x - a by omega]
  · by_cases hpage : base ≤ x ∧ x < base + pageSize
    · rw [if_pos hpage, if_neg (by omega), if_neg hx]
      exact (if_pos hpage).symm
    · rw [if_neg hpage, if_neg hx]
      exact (if_neg hpage).symm

end

/-! ## The strings -/

/-- The strings stand in the page, from `argv[i]` on and from `cur` downwards. -/
def StringsAt (view : Nat → Byte) (base : Nat) (argv : Nat → List Byte) :
    Nat → Nat → List Nat → Prop
  | _, _, [] => True
  | i, cur, v :: vs =>
    v + ((argv i).length + 1) = cur ∧ base ≤ v ∧ Holds view v (argv i ++ [0#8]) ∧
      StringsAt view base argv (i + 1) v vs

section

variable {view view' : Nat → Byte} {base i cur : Nat} {argv : Nat → List Byte} {vs : List Nat}

/-- Each string lies between the end of the strings and their beginning. -/
theorem StringsAt.bounds (h : StringsAt view base argv i cur vs) {j : Nat} (hj : j < vs.length) :
    base ≤ vs[j] ∧ vs[j] + ((argv (i + j)).length + 1) ≤ cur ∧
      Holds view vs[j] (argv (i + j) ++ [0#8]) := by
  induction vs generalizing i cur j with
  | nil => exact absurd hj (Nat.not_lt_zero j)
  | cons v vs ih =>
    obtain ⟨hv, hbase, hstr, hrest⟩ := h
    cases j with
    | zero => exact ⟨hbase, Nat.le_of_eq hv, hstr⟩
    | succ j =>
      obtain ⟨hb, hle, hh⟩ := ih hrest (Nat.lt_of_succ_lt_succ hj)
      rw [show i + (j + 1) = i + 1 + j by omega]
      exact ⟨hb, by simp only [getElem_cons_succ]; omega, hh⟩

/-- A later string lies below an earlier one. -/
theorem StringsAt.below (h : StringsAt view base argv i cur vs) {j k : Nat} (hjk : j < k)
    (hk : k < vs.length) : vs[k] + ((argv (i + k)).length + 1) ≤ vs[j] := by
  induction vs generalizing i cur j k with
  | nil => exact absurd hk (Nat.not_lt_zero k)
  | cons v vs ih =>
    obtain ⟨-, -, -, hrest⟩ := h
    cases k with
    | zero => exact absurd hjk (Nat.not_lt_zero j)
    | succ k =>
      rw [show i + (k + 1) = i + 1 + k by omega]
      cases j with
      | zero => exact (hrest.bounds (Nat.lt_of_succ_lt_succ hk)).2.1
      | succ j => exact ih hrest (Nat.lt_of_succ_lt_succ hjk) (Nat.lt_of_succ_lt_succ hk)

/-- Stores below the strings leave them. -/
theorem StringsAt.congr (h : StringsAt view base argv i cur vs) {low : Nat}
    (hlow : ∀ v ∈ vs, low ≤ v) (heq : ∀ x, low ≤ x → view' x = view x) :
    StringsAt view' base argv i cur vs := by
  induction vs generalizing i cur with
  | nil => trivial
  | cons v vs ih =>
    obtain ⟨hv, hbase, hstr, hrest⟩ := h
    have hfirst := hlow v mem_cons_self
    exact ⟨hv, hbase, hstr.congr fun k hle _ => heq k (by omega),
      ih hrest fun w hw => hlow w (mem_cons_of_mem v hw)⟩

end

section

variable {mem : Nat → Byte} {hhdm base i n cur : Nat} {argv : Nat → List Byte} {vs : List Nat}

/-- The loop writes below the beginning of the strings, and in the page. -/
theorem pushStrings_frame (hcur : base ≤ cur) (hend : cur < 2 ^ 64) {x : Nat}
    (hx : x < hhdm ∨ hhdm + (cur - base) ≤ x) :
    (pushStrings hhdm base argv n i cur mem).1 x = mem x := by
  induction n generalizing i cur mem with
  | zero => rfl
  | succ n ih =>
    rw [pushStrings_succ hcur hend]
    split
    · rfl
    · dsimp only
      rw [ih (by omega) (by omega) (by omega), storeBytes_of_not_mem]
      simp
      omega

/-- What the loop over the strings leaves, if they fit: the strings, and the rest of the page as
it was. -/
theorem pushStrings_spec (hcur : base ≤ cur) (hpage : cur ≤ base + pageSize)
    (hend : base + pageSize < 2 ^ 64) {low : Nat}
    (h : (pushStrings hhdm base argv n i cur mem).2 = some (low, vs)) :
    vs.length = n ∧ base ≤ low ∧ low ≤ cur ∧ (∀ v ∈ vs, low ≤ v) ∧
      StringsAt (userView (pushStrings hhdm base argv n i cur mem).1 hhdm base) base argv i cur
        vs := by
  induction n generalizing i cur mem vs with
  | zero =>
    injection h with h
    injection h with hlow hvs
    subst hlow hvs
    exact ⟨rfl, hcur, Nat.le_refl cur, fun v hv => (not_mem_nil hv).elim, trivial⟩
  | succ n ih =>
    rw [pushStrings_succ hcur (by omega)] at h ⊢
    dsimp only at h ⊢
    by_cases hlen : cur < base + ((argv i).length + 1)
    · rw [if_pos hlen] at h
      cases h
    · rw [if_neg hlen] at h ⊢
      obtain ⟨⟨low', rest⟩, hrest, heq⟩ := Option.map_eq_some_iff.mp h
      injection heq with hlow hvs
      subst hlow hvs
      obtain ⟨hn, hbase, hle, hall, hstrings⟩ := ih (by omega) (by omega) hrest
      refine ⟨by rw [length_cons, hn], hbase, by omega, ?_, by omega, by omega, ?_, hstrings⟩
      · intro v hv
        cases hv with
        | head => exact hle
        | tail _ hv => exact hall v hv
      -- the strings below leave the first one alone
      · have hfirst := holds_storeBytes (userView mem hhdm base) (cur - ((argv i).length + 1))
          (argv i ++ [0#8])
        rw [← userView_storeBytes (by omega) (by simp; omega)] at hfirst
        refine hfirst.congr fun x hx _ => ?_
        unfold userView
        split
        · exact pushStrings_frame (by omega) (by omega) (by omega)
        · rfl

/-- Nothing is written outside the page, whatever the answer is. -/
theorem setupUserStackArgs_frame (haligned : base % 8 = 0) (hend : base + pageSize < 2 ^ 64)
    {argc : Int} {x : Nat} (hx : x < hhdm ∨ hhdm + pageSize ≤ x) :
    (setupUserStackArgs mem hhdm base argc argv).1 x = mem x := by
  have hstrings : (pushStrings hhdm base argv argc.toNat 0 (base + pageSize) mem).1 x = mem x :=
    pushStrings_frame (Nat.le_add_right base pageSize) hend (by omega)
  by_cases hargc : 0 < argc ∧ argc ≤ maxUserArgs
  · cases hpush : (pushStrings hhdm base argv argc.toNat 0 (base + pageSize) mem).2 with
    | none =>
      rw [setupUserStackArgs, if_neg (by omega)]
      dsimp only
      rw [hpush]
      exact hstrings
    | some r =>
      obtain ⟨low, vs⟩ := r
      obtain ⟨hn, hlow, hle, -⟩ :=
        pushStrings_spec (Nat.le_add_right base pageSize) (Nat.le_refl _) hend hpush
      rw [setupUserStackArgs_eq hargc haligned hlow (by omega) hpush]
      dsimp only
      split
      · exact hstrings
      have harray : storeBytes (pushStrings hhdm base argv argc.toNat 0 (base + pageSize) mem).1
          (hhdm + (low / 8 * 8 - (argc.toNat + 1) * 8 - base)) ((vs ++ [0]).flatMap wordBytes) x =
            mem x := by
        rw [storeBytes_of_not_mem, hstrings]
        rw [length_flatMap_wordBytes, length_append, hn, length_singleton]
        omega
      split
      · exact harray
      · dsimp only
        rw [storeBytes_of_not_mem, harray]
        rw [length_append, length_wordBytes, length_wordBytes]
        omega
  · rw [setupUserStackArgs, if_pos (by omega)]

end

/-! ## The round trip -/

/-- A program that starts with stack pointer `rsp` finds its arguments. -/
structure Decoded (view : Nat → Byte) (base rsp argc : Nat) (argv : Nat → List Byte) : Prop where
  aligned : rsp % 8 = 0
  inside : base ≤ rsp
  argc_eq : (start view rsp).1 = argc
  /-- The array lies above the pair. -/
  array : rsp + 16 ≤ (start view rsp).2
  /-- The array ends with a null pointer. -/
  null : readWord view ((start view rsp).2 + 8 * argc) = 0
  /-- Each string lies above the array and in the page, and is the argument. -/
  string : ∀ i < argc,
    (start view rsp).2 + 8 * (argc + 1) ≤ readWord view ((start view rsp).2 + 8 * i) ∧
    readWord view ((start view rsp).2 + 8 * i) + ((argv i).length + 1) ≤ base + pageSize ∧
    cString view pageSize (readWord view ((start view rsp).2 + 8 * i)) = argv i
  /-- No two strings overlap. -/
  apart : ∀ i j, i < j → j < argc →
    readWord view ((start view rsp).2 + 8 * j) + ((argv j).length + 1) ≤
      readWord view ((start view rsp).2 + 8 * i)

section

variable {mem : Nat → Byte} {hhdm base : Nat} {argv : Nat → List Byte} {argc : Int}

/-- The answer, where there is one: the program sees the array and the pair below the strings. -/
theorem setupUserStackArgs_cases (haligned : base % 8 = 0) (hend : base + pageSize < 2 ^ 64)
    (h : (setupUserStackArgs mem hhdm base argc argv).2 ≠ 0) :
    ∃ low vs arr, vs.length = argc.toNat ∧ (∀ v ∈ vs, low ≤ v) ∧ low ≤ base + pageSize ∧
      base + 16 ≤ arr ∧ arr + (argc.toNat + 1) * 8 = low / 8 * 8 ∧
      (setupUserStackArgs mem hhdm base argc argv).2 = arr - 16 ∧ ∃ strings,
        StringsAt strings base argv 0 (base + pageSize) vs ∧
        userView (setupUserStackArgs mem hhdm base argc argv).1 hhdm base =
          storeBytes (storeBytes strings arr ((vs ++ [0]).flatMap wordBytes))
            (arr - 16) (wordBytes argc.toNat ++ wordBytes arr) := by
  by_cases hargc : argc ≤ 0 ∨ argc > maxUserArgs
  · rw [setupUserStackArgs, if_pos hargc] at h
    exact absurd rfl h
  cases hpush : (pushStrings hhdm base argv argc.toNat 0 (base + pageSize) mem).2 with
  | none =>
    rw [setupUserStackArgs, if_neg hargc] at h
    dsimp only at h
    rw [hpush] at h
    exact absurd rfl h
  | some r =>
    obtain ⟨low, vs⟩ := r
    obtain ⟨hn, hlow, hle, hall, hstrings⟩ :=
      pushStrings_spec (Nat.le_add_right base pageSize) (Nat.le_refl _) hend hpush
    rw [setupUserStackArgs_eq (by omega) haligned hlow (by omega) hpush] at h ⊢
    dsimp only at h ⊢
    by_cases harr : low / 8 * 8 < base + (argc.toNat + 1) * 8
    · rw [if_pos harr] at h
      exact absurd rfl h
    rw [if_neg harr] at h ⊢
    by_cases hpair : low / 8 * 8 - (argc.toNat + 1) * 8 < base + 16
    · rw [if_pos hpair] at h
      exact absurd rfl h
    rw [if_neg hpair]
    refine ⟨low, vs, low / 8 * 8 - (argc.toNat + 1) * 8, hn, hall, hle, by omega, by omega, rfl, _,
      hstrings, ?_⟩
    rw [userView_storeBytes (by omega) (by simp; omega), userView_storeBytes (by omega)]
    rw [length_flatMap_wordBytes, length_append, hn, length_singleton]
    omega

theorem decoded_of_ne_zero (haligned : base % 8 = 0) (hend : base + pageSize < 2 ^ 64)
    (hargc : argc.toNat ≤ maxUserArgs) (hnul : ∀ i < argc.toNat, 0#8 ∉ argv i)
    (h : (setupUserStackArgs mem hhdm base argc argv).2 ≠ 0) :
    Decoded (userView (setupUserStackArgs mem hhdm base argc argv).1 hhdm base) base
      (setupUserStackArgs mem hhdm base argc argv).2 argc.toNat argv := by
  obtain ⟨low, vs, arr, hn, hall, hle, hbase, harr, hanswer, strings, hstrings, hview⟩ :=
    setupUserStackArgs_cases haligned hend h
  rw [hanswer, hview]
  generalize argc.toNat = n at *
  have hmax : n ≤ 8 := hargc
  have harrlen : ((vs ++ [0]).flatMap wordBytes).length = 8 * (n + 1) := by
    rw [length_flatMap_wordBytes, length_append, hn, length_singleton]
  have hpairlen : (wordBytes n ++ wordBytes arr).length = 16 := by
    rw [length_append, length_wordBytes, length_wordBytes]
  -- the strings, the array and the pair as the program sees them
  have hpair := holds_storeBytes (storeBytes strings arr ((vs ++ [0]).flatMap wordBytes))
    (arr - 16) (wordBytes n ++ wordBytes arr)
  have harray : Holds (storeBytes (storeBytes strings arr ((vs ++ [0]).flatMap wordBytes))
      (arr - 16) (wordBytes n ++ wordBytes arr)) arr ((vs ++ [0]).flatMap wordBytes) :=
    (holds_storeBytes strings _ _).storeBytes (.inl (by omega))
  have hfinal : StringsAt (storeBytes (storeBytes strings arr ((vs ++ [0]).flatMap wordBytes))
      (arr - 16) (wordBytes n ++ wordBytes arr)) base argv 0 (base + pageSize) vs := by
    refine hstrings.congr hall fun k hk => ?_
    rw [storeBytes_of_not_mem (by omega), storeBytes_of_not_mem (by omega)]
  generalize storeBytes (storeBytes strings arr ((vs ++ [0]).flatMap wordBytes)) (arr - 16)
    (wordBytes n ++ wordBytes arr) = final at hpair harray hfinal ⊢
  -- what the program reads
  have hfirst : (start final (arr - 16)).1 = n := readWord_of_holds hpair.left (by omega)
  have hsecond : (start final (arr - 16)).2 = arr := by
    refine readWord_of_holds ?_ (by omega)
    have hright := hpair.right
    rwa [length_wordBytes] at hright
  have hpointer : ∀ j, (hj : j < n) → readWord final (arr + 8 * j) = vs[j] := by
    intro j hj
    have hv := (hfinal.bounds (hn.symm ▸ hj)).2.1
    have hword := holds_word harray (j := j) (by simp; omega)
    rw [getElem_append_left (hn.symm ▸ hj)] at hword
    exact readWord_of_holds hword (by omega)
  refine ⟨by omega, by omega, hfirst, by omega, ?_, ?_, ?_⟩
  · have hword := holds_word harray (j := n) (by simp; omega)
    rw [getElem_append_right (Nat.le_of_eq hn)] at hword
    simp only [hn, Nat.sub_self, getElem_singleton] at hword
    rw [hsecond]
    exact readWord_of_holds hword (by omega)
  · intro i hi
    rw [hsecond, hpointer i hi]
    obtain ⟨hb, htop, hstr⟩ := hfinal.bounds (hn.symm ▸ hi)
    have habove := hall vs[i] (getElem_mem _)
    rw [Nat.zero_add] at htop hstr
    exact ⟨by omega, htop, cString_of_holds hstr (hnul i hi) (by omega)⟩
  · intro i j hij hj
    rw [hsecond, hpointer i (Nat.lt_trans hij hj), hpointer j hj]
    have hbelow := hfinal.below hij (hn.symm ▸ hj)
    rwa [Nat.zero_add] at hbelow

end

/-! ## Arguments of a system call -/

theorem length_copyString (userStr : Nat → Byte) (n i : Nat) :
    (copyString userStr n i).length ≤ n := by
  induction n generalizing i with
  | zero => exact Nat.le_refl 0
  | succ n ih =>
    rw [copyString]
    split
    · exact Nat.zero_le _
    · exact Nat.succ_le_succ (ih (i + 1))

theorem copyStrings_bounds (userArgv : Nat → Option (Nat → Byte)) (n argc : Nat) :
    (copyStrings userArgv n argc).length ≤ n ∧
      ∀ s ∈ copyStrings userArgv n argc, s.length < maxArgLen := by
  induction n generalizing argc with
  | zero => exact ⟨Nat.le_refl 0, fun s hs => (not_mem_nil hs).elim⟩
  | succ n ih =>
    rw [copyStrings]
    split
    · exact ⟨Nat.zero_le _, fun s hs => (not_mem_nil hs).elim⟩
    next userStr _ =>
      obtain ⟨hlen, hall⟩ := ih (argc + 1)
      refine ⟨Nat.succ_le_succ hlen, fun s hs => ?_⟩
      cases hs with
      | head =>
        exact Nat.lt_of_le_of_lt (length_copyString userStr _ 0) (by decide)
      | tail _ hs => exact hall s hs

/-- The copied arguments: few and short. -/
theorem copyArgvFromUser_bounds (userArgv : Option (Nat → Option (Nat → Byte))) :
    (copyArgvFromUser userArgv).length ≤ maxUserArgs ∧
      ∀ s ∈ copyArgvFromUser userArgv, s.length < maxArgLen := by
  cases userArgv with
  | none => exact ⟨Nat.zero_le _, fun s hs => (not_mem_nil hs).elim⟩
  | some userArgv => exact copyStrings_bounds userArgv maxUserArgs 0

theorem stringBytes_le {argv : Nat → List Byte} {bound : Nat}
    (h : ∀ i, (argv i).length < bound) (n i : Nat) : stringBytes argv n i ≤ n * bound := by
  induction n generalizing i with
  | zero => exact Nat.zero_le _
  | succ n ih =>
    have hfirst := h i
    have hrest := ih (i + 1)
    rw [stringBytes, Nat.succ_mul]
    omega

/-- Copied arguments always fit. -/
theorem argsFit_copied {userArgv : Option (Nat → Option (Nat → Byte))}
    (h : copyArgvFromUser userArgv ≠ []) :
    ArgsFit (copyArgvFromUser userArgv).length fun i => (copyArgvFromUser userArgv).getD i [] := by
  obtain ⟨hlen, hall⟩ := copyArgvFromUser_bounds userArgv
  generalize copyArgvFromUser userArgv = args at *
  have hpos : 0 < args.length := length_pos_iff.mpr h
  have hshort : ∀ i, (args.getD i []).length < maxArgLen := by
    intro i
    by_cases hi : i < args.length
    · rw [getD_eq_getElem _ _ hi]
      exact hall _ (getElem_mem hi)
    · rw [getD_eq_default _ _ (Nat.le_of_not_lt hi)]
      decide
  have hbytes := stringBytes_le hshort args.length 0
  unfold ArgsFit
  rw [Int.toNat_natCast]
  generalize stringBytes (fun i => args.getD i []) args.length 0 = total at *
  unfold maxUserArgs maxArgLen pageSize at *
  omega

/-- The arguments of a program either do not fit into the stack page, and the answer is 0, or the
program finds them as they were given.  In either case memory below and above the page stays as it
was.  Those of a system call always fit. -/
theorem args_round_trip (mem : Nat → Byte) (hhdm base : Nat) (argc : Int) (argv : Nat → List Byte)
    (hbase : 0 < base) (haligned : base % pageSize = 0) (hend : base + pageSize < 2 ^ 64)
    (hargc : 1 ≤ argc ∧ argc ≤ maxUserArgs) (hnul : ∀ i < argc.toNat, 0#8 ∉ argv i) :
    ((setupUserStackArgs mem hhdm base argc argv).2 = 0 ↔ ¬ArgsFit argc argv) ∧
    ((setupUserStackArgs mem hhdm base argc argv).2 ≠ 0 →
      Decoded (userView (setupUserStackArgs mem hhdm base argc argv).1 hhdm base) base
        (setupUserStackArgs mem hhdm base argc argv).2 argc.toNat argv) ∧
    (∀ a, a < hhdm ∨ hhdm + pageSize ≤ a →
      (setupUserStackArgs mem hhdm base argc argv).1 a = mem a) ∧
    ∀ userArgv, copyArgvFromUser userArgv ≠ [] →
      (setupUserStackArgs mem hhdm base (copyArgvFromUser userArgv).length fun i =>
        (copyArgvFromUser userArgv).getD i []).2 ≠ 0 := by
  have hfits := @setupUserStackArgs_iff hhdm base argv mem argc hbase haligned hend
  have hbase8 : base % 8 = 0 := by
    unfold pageSize at haligned
    omega
  refine ⟨?_, ?_, fun a ha => setupUserStackArgs_frame hbase8 hend ha, fun userArgv h => ?_⟩
  · rw [← hfits, not_not]
  · exact decoded_of_ne_zero hbase8 hend (by omega) hnul
  · exact (setupUserStackArgs_iff hbase haligned hend).mpr (argsFit_copied h)

/-- Two arguments, the second of which is empty. -/
def twoArgs (i : Nat) : List Byte := if i = 0 then [0x6C#8, 0x73#8] else []

theorem args_round_trip_twoArgs :
    ArgsFit 2 twoArgs ∧
      Decoded (userView (setupUserStackArgs (fun _ => 0#8) 8192 4096 2 twoArgs).1 8192 4096) 4096
        (setupUserStackArgs (fun _ => 0#8) 8192 4096 2 twoArgs).2 2 twoArgs := by
  have hfit : ArgsFit 2 twoArgs := by decide
  have htrip := args_round_trip (fun _ => 0#8) 8192 4096 2 twoArgs (by decide) (by decide)
    (by decide) (by decide) (by decide)
  exact ⟨hfit, htrip.2.1 fun hzero => htrip.1.mp hzero hfit⟩

end Aeryk.Elf
