import Aeryk.Lib.Copying

/-!
# Moving memory

The kernel and the C library each have a `memmove`, with the same body: eight bytes a turn while
there are eight, and single bytes for the rest, upwards when the source lies above the destination
and downwards, the single bytes first, when it lies below.

A word is loaded whole before it is stored, so a turn copies its eight bytes at once even where
they overlap themselves, and each loop extends one finished piece, `moved`, at the end where
nothing that is still to be read was overwritten.  So it agrees with the loops that take one byte a
turn (`memmoveBytes`).
-/

namespace Aeryk.Str

open Lib

/-- `pdest[i] = psrc[i]` -/
def copyByte (dest src i : Nat) (m : Bytes) : Bytes :=
  Function.update m (offset dest i) (m (offset src i))

/-- `wdest[i] = wsrc[i]` -/
def copyWord (dest src i : Nat) (m : Bytes) : Bytes :=
  storeWord m (offset dest (8 * i)) (loadWord m (offset src (8 * i)))

/-- The branch for a source above the destination. -/
def moveUp (m : Bytes) (dest src n : Nat) : Bytes :=
  let words := n / 8
  let m := ascending (copyWord dest src) 0 words m
  ascending (copyByte dest src) (words * 8) (n - words * 8) m

/-- The branch for a source below the destination. -/
def moveDown (m : Bytes) (dest src n : Nat) : Bytes :=
  let tailBytes := n % 8
  let m := descending (fun i => copyByte dest src (i - 1)) n tailBytes m
  let words := (n - tailBytes) / 8
  descending (fun i => copyWord dest src (i - 1)) words words m

/-- The body of `memmove`: memory afterwards, and the pointer returned. -/
def moveBytes (m : Bytes) (dest src n : Nat) : Bytes × Nat :=
  if src > dest then (moveUp m dest src n, dest)
  else if src < dest then (moveDown m dest src n, dest)
  else (m, dest)

def Kernel.memmove (m : Bytes) (dest src n : Nat) : Bytes × Nat := moveBytes m dest src n

def Libc.memmove (m : Bytes) (dest src n : Nat) : Bytes × Nat := moveBytes m dest src n

/-- The definition of a move that takes one byte at a time, from the end that is safe. -/
def memmoveBytes (m : Bytes) (dest src n : Nat) : Bytes :=
  if src > dest then ascending (copyByte dest src) 0 n m
  else descending (fun i => copyByte dest src (i - 1)) n n m

/-! ## One turn -/

section

variable {m : Bytes} {dest src n i k lo hi : Nat}

theorem copyByte_eq (hdest : dest + n ≤ 2 ^ 64) (hsrc : src + n ≤ 2 ^ 64) (hi : i < n) :
    copyByte dest src i m = moved m (dest + i) (src + i) 1 := by
  rw [copyByte, offset_eq (by omega), offset_eq (by omega), update_eq_moved]

theorem copyWord_eq (hdest : dest + n ≤ 2 ^ 64) (hsrc : src + n ≤ 2 ^ 64) (hi : 8 * i + 8 ≤ n) :
    copyWord dest src i m = moved m (dest + 8 * i) (src + 8 * i) 8 := by
  rw [copyWord, offset_eq (by omega), offset_eq (by omega),
    storeWord_loadWord (by omega) (by omega)]

/-! ## The loops

Upwards the first `i` bytes are done, downwards those from `i` on. -/

theorem bytes_up (hdest : dest + n ≤ 2 ^ 64) (hsrc : src + n ≤ 2 ^ 64)
    (hapart : dest ≤ src ∨ src + n ≤ dest) (hk : lo + k ≤ n) :
    ascending (copyByte dest src) lo k (moved m dest src lo) = moved m dest src (lo + k) := by
  apply ascending_rule (I := fun i m' => m' = moved m dest src i) rfl
  intro i m' hlo hi hm'
  rw [hm', copyByte_eq hdest hsrc (by omega), moved_up (by omega)]

theorem words_up (hdest : dest + n ≤ 2 ^ 64) (hsrc : src + n ≤ 2 ^ 64)
    (hapart : dest ≤ src ∨ src + n ≤ dest) (hk : 8 * k ≤ n) :
    ascending (copyWord dest src) 0 k m = moved m dest src (8 * k) := by
  have hall : ascending (copyWord dest src) 0 k m = moved m dest src (8 * (0 + k)) := by
    apply ascending_rule (I := fun i m' => m' = moved m dest src (8 * i))
      (moved_zero m dest src).symm
    intro i m' _ hi hm'
    rw [hm', copyWord_eq hdest hsrc (by omega), moved_up (by omega), Nat.mul_succ]
  rwa [Nat.zero_add] at hall

theorem bytes_down (hdest : dest + n ≤ 2 ^ 64) (hsrc : src + n ≤ 2 ^ 64) (hbelow : src ≤ dest)
    (hk : k ≤ n) :
    descending (fun i => copyByte dest src (i - 1)) n k m =
      moved m (dest + (n - k)) (src + (n - k)) (n - (n - k)) := by
  apply descending_rule (I := fun i m' => m' = moved m (dest + i) (src + i) (n - i))
  case hs => rw [Nat.sub_self, moved_zero]
  case hbody =>
    intro i m' hlo hi hm'
    have hone : dest + i = dest + (i - 1) + 1 ∧ src + i = src + (i - 1) + 1 := by omega
    rw [hm', copyByte_eq hdest hsrc (by omega), hone.1, hone.2, moved_down (by omega)]
    congr 1
    omega

theorem words_down (hdest : dest + n ≤ 2 ^ 64) (hsrc : src + n ≤ 2 ^ 64) (hbelow : src ≤ dest)
    (hk : 8 * k ≤ n) :
    descending (fun i => copyWord dest src (i - 1)) k k
        (moved m (dest + 8 * k) (src + 8 * k) (n - 8 * k)) = moved m dest src n := by
  have hall : descending (fun i => copyWord dest src (i - 1)) k k
        (moved m (dest + 8 * k) (src + 8 * k) (n - 8 * k)) =
      moved m (dest + 8 * (k - k)) (src + 8 * (k - k)) (n - 8 * (k - k)) := by
    apply descending_rule
      (I := fun i m' => m' = moved m (dest + 8 * i) (src + 8 * i) (n - 8 * i)) rfl
    intro i m' hlo hi hm'
    have height : dest + 8 * i = dest + 8 * (i - 1) + 8 ∧
        src + 8 * i = src + 8 * (i - 1) + 8 := by omega
    rw [hm', copyWord_eq hdest hsrc (by omega), height.1, height.2, moved_down (by omega)]
    congr 1
    omega
  simpa only [Nat.sub_self, Nat.mul_zero, Nat.add_zero, Nat.sub_zero] using hall

/-! ## The whole move -/

theorem moveUp_eq (hdest : dest + n ≤ 2 ^ 64) (hsrc : src + n ≤ 2 ^ 64)
    (hapart : dest ≤ src ∨ src + n ≤ dest) : moveUp m dest src n = moved m dest src n := by
  have hrest : n / 8 * 8 + (n - n / 8 * 8) = n := by omega
  rw [moveUp, words_up hdest hsrc hapart (by omega), Nat.mul_comm 8,
    bytes_up hdest hsrc hapart (by omega), hrest]

theorem moveDown_eq (hdest : dest + n ≤ 2 ^ 64) (hsrc : src + n ≤ 2 ^ 64) (hbelow : src ≤ dest) :
    moveDown m dest src n = moved m dest src n := by
  have hwords : 8 * ((n - n % 8) / 8) = n - n % 8 := by omega
  have htail := bytes_down (m := m) hdest hsrc hbelow (Nat.mod_le n 8)
  have hwhole := words_down (m := m) hdest hsrc hbelow (k := (n - n % 8) / 8) (by omega)
  rw [hwords] at hwhole
  rw [moveDown, htail, hwhole]

/-- Both copies of `memmove` move the bytes as if all at once. -/
theorem moveBytes_eq (hdest : dest + n ≤ 2 ^ 64) (hsrc : src + n ≤ 2 ^ 64) :
    moveBytes m dest src n = (moved m dest src n, dest) := by
  rw [moveBytes]
  split
  next h => rw [moveUp_eq hdest hsrc (.inl (Nat.le_of_lt h))]
  · split
    next h => rw [moveDown_eq hdest hsrc (Nat.le_of_lt h)]
    · have heq : src = dest := by omega
      rw [heq, moved_self]

theorem memmoveBytes_eq (hdest : dest + n ≤ 2 ^ 64) (hsrc : src + n ≤ 2 ^ 64) :
    memmoveBytes m dest src n = moved m dest src n := by
  rw [memmoveBytes]
  split
  next h =>
    have hall : ascending (copyByte dest src) 0 n (moved m dest src 0) =
        moved m dest src (0 + n) :=
      bytes_up hdest hsrc (.inl (Nat.le_of_lt h)) (by omega)
    simpa only [Nat.zero_add, moved_zero] using hall
  next h =>
    have hall := bytes_down (m := m) hdest hsrc (Nat.le_of_not_gt h) (Nat.le_refl n)
    simpa only [Nat.sub_self, Nat.add_zero, Nat.sub_zero] using hall

end

/-- What a call `memmove(dest, src, n)` in memory `m` is to do. -/
structure MoveExact (m : Bytes) (dest src n : Nat) (result : Bytes × Nat) : Prop where
  /-- The destination holds the original bytes of the source. -/
  copied : ∀ i < n, result.1 (dest + i) = m (src + i)
  /-- Every other byte is as it was. -/
  frame : ∀ x, ¬(dest ≤ x ∧ x < dest + n) → result.1 x = m x
  /-- The words come to the same as single bytes. -/
  bytewise : result.1 = memmoveBytes m dest src n
  /-- The destination is returned. -/
  returned : result.2 = dest

/-- However the two ranges overlap, both copies of `memmove` are exact. -/
theorem memmove_exact (m : Bytes) (dest src n : Nat) (hdest : dest + n ≤ 2 ^ 64)
    (hsrc : src + n ≤ 2 ^ 64) :
    MoveExact m dest src n (Kernel.memmove m dest src n) ∧
      MoveExact m dest src n (Libc.memmove m dest src n) := by
  have hexact : MoveExact m dest src n (moveBytes m dest src n) := by
    rw [moveBytes_eq hdest hsrc]
    exact ⟨fun i hi => moved_of_lt hi, fun x hx => moved_of_not_mem hx,
      (memmoveBytes_eq hdest hsrc).symm, rfl⟩
  exact ⟨hexact, hexact⟩

/-- Twenty bytes are moved up by three, so each word overlaps its own source. -/
theorem memmove_exact_overlapping :
    MoveExact (BitVec.ofNat 8) 3 0 20 (Kernel.memmove (BitVec.ofNat 8) 3 0 20) ∧
      (Kernel.memmove (BitVec.ofNat 8) 3 0 20).1 22 = 19#8 :=
  have hexact := memmove_exact (BitVec.ofNat 8) 3 0 20 (by decide) (by decide)
  ⟨hexact.1, hexact.1.copied 19 (by decide)⟩

end Aeryk.Str
