import Aeryk.Str.Memory

/-!
# Copying and filling memory

`memcpy` and `memset`, of which the kernel and the C library have one each with the same body.
`memcpy` is the upward branch of `memmove` without the test: it is right where the ranges lie
apart.  `memset` makes a word of eight equal bytes by doubling a byte three times, stores words
while there are eight bytes to fill, and single bytes for the rest.  Both are compared with loops
that take one byte a turn (`memcpyBytes`, `memsetBytes`).
-/

namespace Aeryk.Str

open Lib

/-- The body of `memcpy`: memory afterwards, and the pointer returned. -/
def copyBytes (m : Bytes) (dest src n : Nat) : Bytes × Nat := (moveUp m dest src n, dest)

def Kernel.memcpy (m : Bytes) (dest src n : Nat) : Bytes × Nat := copyBytes m dest src n

def Libc.memcpy (m : Bytes) (dest src n : Nat) : Bytes × Nat := copyBytes m dest src n

def memcpyBytes (m : Bytes) (dest src n : Nat) : Bytes := ascending (copyByte dest src) 0 n m

/-- `pattern` of `memset`. -/
def pattern (byte : BitVec 8) : BitVec 64 :=
  let pattern := byte.setWidth 64
  let pattern := pattern ||| pattern <<< 8
  let pattern := pattern ||| pattern <<< 16
  pattern ||| pattern <<< 32

/-- `pdest[i] = byte` -/
def setByte (dest : Nat) (byte : BitVec 8) (i : Nat) (m : Bytes) : Bytes :=
  Function.update m (offset dest i) byte

/-- `wdest[i] = pattern` -/
def setPattern (dest : Nat) (byte : BitVec 8) (i : Nat) (m : Bytes) : Bytes :=
  storeWord m (offset dest (8 * i)) (pattern byte)

/-- The body of `memset`: memory afterwards, and the pointer returned. -/
def setBytes (m : Bytes) (dest : Nat) (c : BitVec 32) (n : Nat) : Bytes × Nat :=
  let byte := c.setWidth 8
  let words := n / 8
  let m := ascending (setPattern dest byte) 0 words m
  (ascending (setByte dest byte) (words * 8) (n - words * 8) m, dest)

def Kernel.memset (m : Bytes) (dest : Nat) (c : BitVec 32) (n : Nat) : Bytes × Nat :=
  setBytes m dest c n

def Libc.memset (m : Bytes) (dest : Nat) (c : BitVec 32) (n : Nat) : Bytes × Nat :=
  setBytes m dest c n

def memsetBytes (m : Bytes) (dest : Nat) (c : BitVec 32) (n : Nat) : Bytes :=
  ascending (setByte dest (c.setWidth 8)) 0 n m

/-! ## Copies -/

section

variable {m : Bytes} {dest src n lo k : Nat}

theorem memcpyBytes_eq (hdest : dest + n ≤ 2 ^ 64) (hsrc : src + n ≤ 2 ^ 64)
    (hapart : dest ≤ src ∨ src + n ≤ dest) : memcpyBytes m dest src n = moved m dest src n := by
  have hall : ascending (copyByte dest src) 0 n (moved m dest src 0) =
      moved m dest src (0 + n) := bytes_up hdest hsrc hapart (by omega)
  rw [Nat.zero_add, moved_zero] at hall
  exact hall

/-! ## Fills -/

/-- The three doublings fill the word. -/
theorem pattern_repeats (byte : BitVec 8) : Repeats byte 8 (pattern byte) :=
  ((repeats_setWidth byte).double.double).double

variable {byte : BitVec 8}

theorem setBytes_up (hdest : dest + n ≤ 2 ^ 64) (hk : lo + k ≤ n) :
    ascending (setByte dest byte) lo k (fill m dest lo byte) = fill m dest (lo + k) byte := by
  apply ascending_rule (I := fun i m' => m' = fill m dest i byte) rfl
  intro i m' hlo hi hm'
  rw [hm', setByte, offset_eq (by omega), update_eq_fill, fill_append]

theorem setPatterns_up (hdest : dest + n ≤ 2 ^ 64) (hk : 8 * k ≤ n) :
    ascending (setPattern dest byte) 0 k m = fill m dest (8 * k) byte := by
  have hall : ascending (setPattern dest byte) 0 k m = fill m dest (8 * (0 + k)) byte := by
    apply ascending_rule (I := fun i m' => m' = fill m dest (8 * i) byte)
      (fill_zero m dest byte).symm
    intro i m' _ hi hm'
    rw [hm', setPattern, offset_eq (by omega), storeWord_repeats (pattern_repeats byte) (by omega),
      fill_append, Nat.mul_succ]
  rwa [Nat.zero_add] at hall

theorem setBytes_eq (c : BitVec 32) (hdest : dest + n ≤ 2 ^ 64) :
    setBytes m dest c n = (fill m dest n (c.setWidth 8), dest) := by
  have hrest : n / 8 * 8 + (n - n / 8 * 8) = n := by omega
  rw [setBytes, setPatterns_up hdest (by omega), Nat.mul_comm 8, setBytes_up hdest (by omega),
    hrest]

theorem memsetBytes_eq (c : BitVec 32) (hdest : dest + n ≤ 2 ^ 64) :
    memsetBytes m dest c n = fill m dest n (c.setWidth 8) := by
  have hall : ascending (setByte dest (c.setWidth 8)) 0 n (fill m dest 0 (c.setWidth 8)) =
      fill m dest (0 + n) (c.setWidth 8) := setBytes_up hdest (by omega)
  rw [Nat.zero_add, fill_zero] at hall
  exact hall

end

/-! ## The calls -/

/-- What a call `memcpy(dest, src, n)` in memory `m` is to do. -/
structure CopyExact (m : Bytes) (dest src n : Nat) (result : Bytes × Nat) : Prop where
  /-- The destination holds the original bytes of the source. -/
  copied : ∀ i < n, result.1 (dest + i) = m (src + i)
  /-- Every other byte is as it was. -/
  frame : ∀ x, ¬(dest ≤ x ∧ x < dest + n) → result.1 x = m x
  /-- The words come to the same as single bytes. -/
  bytewise : result.1 = memcpyBytes m dest src n
  /-- The destination is returned. -/
  returned : result.2 = dest

/-- What a call `memset(dest, c, n)` in memory `m` is to do. -/
structure SetExact (m : Bytes) (dest : Nat) (c : BitVec 32) (n : Nat) (result : Bytes × Nat) :
    Prop where
  /-- The destination holds the low eight bits of `c`. -/
  filled : ∀ i < n, result.1 (dest + i) = c.setWidth 8
  /-- Every other byte is as it was. -/
  frame : ∀ x, ¬(dest ≤ x ∧ x < dest + n) → result.1 x = m x
  /-- The words come to the same as single bytes. -/
  bytewise : result.1 = memsetBytes m dest c n
  /-- The destination is returned. -/
  returned : result.2 = dest

/-- Both copies of `memcpy` are exact where the ranges lie apart, and both copies of `memset` are
exact. -/
theorem memcpy_memset_exact (m : Bytes) (dest n : Nat) (hdest : dest + n ≤ 2 ^ 64) :
    (∀ src, src + n ≤ 2 ^ 64 → dest + n ≤ src ∨ src + n ≤ dest →
      CopyExact m dest src n (Kernel.memcpy m dest src n) ∧
        CopyExact m dest src n (Libc.memcpy m dest src n)) ∧
    ∀ c, SetExact m dest c n (Kernel.memset m dest c n) ∧
      SetExact m dest c n (Libc.memset m dest c n) := by
  refine ⟨fun src hsrc hapart => ?_, fun c => ?_⟩
  · have hup : dest ≤ src ∨ src + n ≤ dest := hapart.imp_left fun h => by omega
    have hexact : CopyExact m dest src n (copyBytes m dest src n) := by
      rw [copyBytes, moveUp_eq hdest hsrc hup]
      exact ⟨fun i hi => moved_of_lt hi, fun x hx => moved_of_not_mem hx,
        (memcpyBytes_eq hdest hsrc hup).symm, rfl⟩
    exact ⟨hexact, hexact⟩
  · have hexact : SetExact m dest c n (setBytes m dest c n) := by
      rw [setBytes_eq c hdest]
      exact ⟨fun i hi => fill_of_mem m _ (by omega), fun x hx => fill_of_not_mem m _ hx,
        (memsetBytes_eq c hdest).symm, rfl⟩
    exact ⟨hexact, hexact⟩

/-- Thirteen bytes are copied from one range to the next, and filled with minus two. -/
theorem memcpy_memset_exact_thirteen :
    (Kernel.memcpy (BitVec.ofNat 8) 3 16 13).1 15 = 28#8 ∧
      (Libc.memset (BitVec.ofNat 8) 3 (-2#32) 13).1 15 = 254#8 :=
  have hexact := memcpy_memset_exact (BitVec.ofNat 8) 3 13 (by decide)
  ⟨(hexact.1 16 (by decide) (by decide)).1.copied 12 (by decide),
    (hexact.2 (-2#32)).2.filled 12 (by decide)⟩

end Aeryk.Str
