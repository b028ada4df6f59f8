import Mathlib.Data.Nat.Bitwise
import Aeryk.Mem.Pmm

/-!
# Page-table entries

`vmm.h`: the flag bits of an entry, the two masks that `vmm.c` takes an entry apart with,
and what is read back from an entry that was put together as `phys | flags`.
-/

namespace Aeryk.Vm

open Mem (pageSize)

abbrev Word := BitVec 64

def ptePresent : Word := 1#64 <<< 0

def pteWritable : Word := 1#64 <<< 1

def pteUser : Word := 1#64 <<< 2

def ptePwt : Word := 1#64 <<< 3

def pteCow : Word := 1#64 <<< 9

def pteShared : Word := 1#64 <<< 10

def pteNopmm : Word := 1#64 <<< 11

def pteNx : Word := 1#64 <<< 63

def addrMask : Word := 0x000FFFFFFFFFF000#64

def flagsMask : Word := 0xFFF0000000000FFF#64

/-- `(w & flag) != 0`. -/
def isSet (w flag : Word) : Bool := w &&& flag != 0#64

/-- `w & 0x000FFFFFFFFFF000`, the physical address in an entry. -/
def physOf (w : Word) : Nat := (w &&& addrMask).toNat

def frameOf (w : Word) : Nat := physOf w / pageSize

/-- `phys | flags`. -/
def entry (phys : Nat) (flags : Word) : Word := BitVec.ofNat 64 phys ||| flags

def child (w : Word) : Option Nat := if isSet w ptePresent then some (frameOf w) else none

/-- The frame of the page allocator that a leaf entry holds a reference to. -/
def owned (w : Word) : Option Nat :=
  if isSet w ptePresent && !isSet w pteNopmm then some (frameOf w) else none

/-! ## Bits -/

theorem isSet_or (v w flag : Word) : isSet (v ||| w) flag = (isSet v flag || isSet w flag) := by
  have hor : (v ||| w) &&& flag = v &&& flag ||| w &&& flag := by
    ext i
    simp [Bool.and_or_distrib_right]
  unfold isSet
  rw [hor, Bool.eq_iff_iff]
  simp only [bne_iff_ne, Bool.or_eq_true, ne_eq, BitVec.or_eq_zero_iff, not_and_or]

theorem isSet_and (w mask flag : Word) (h : mask &&& flag = flag) :
    isSet (w &&& mask) flag = isSet w flag := by
  unfold isSet
  rw [BitVec.and_assoc, h]

theorem isSet_and_zero (w mask flag : Word) (h : mask &&& flag = 0#64) :
    isSet (w &&& mask) flag = false := by
  unfold isSet
  rw [BitVec.and_assoc, h, BitVec.and_zero]
  rfl

theorem getLsbD_addrMask (i : Nat) :
    addrMask.getLsbD i = (decide (12 ≤ i) && decide (i < 52)) := by
  by_cases hi : i < 64
  · have hall : ∀ j : Fin 64,
        addrMask.getLsbD j = (decide (12 ≤ j.val) && decide (j.val < 52)) := by
      decide
    exact hall ⟨i, hi⟩
  · have hge : ¬i < 52 := by omega
    rw [BitVec.getLsbD_of_ge _ _ (by omega)]
    simp [hge]

theorem frame_and_mask {f : Nat} (hf : f < 2 ^ 40) :
    BitVec.ofNat 64 (f * pageSize) &&& addrMask = BitVec.ofNat 64 (f * pageSize) := by
  apply BitVec.eq_of_getLsbD_eq
  intro i hi
  rw [BitVec.getLsbD_and, getLsbD_addrMask, BitVec.getLsbD_ofNat]
  have hbit : (f * pageSize).testBit i = (decide (12 ≤ i) && f.testBit (i - 12)) :=
    Nat.testBit_mul_two_pow f i 12
  have hhigh : 52 ≤ i → f.testBit (i - 12) = false := by
    intro h
    refine Nat.testBit_lt_two_pow (Nat.lt_of_lt_of_le hf ?_)
    exact Nat.pow_le_pow_right (by decide) (by omega)
  rw [hbit]
  by_cases h52 : i < 52
  · cases decide (12 ≤ i) <;> simp [h52]
  · rw [hhigh (by omega)]
    simp

theorem toNat_frame {f : Nat} (hf : f < 2 ^ 40) :
    (BitVec.ofNat 64 (f * pageSize)).toNat = f * pageSize := by
  rw [BitVec.toNat_ofNat, Nat.mod_eq_of_lt (by unfold pageSize; omega)]

section

variable {f : Nat} {flags flag : Word}

theorem physOf_entry (hf : f < 2 ^ 40) (hflags : flags &&& addrMask = 0#64) :
    physOf (entry (f * pageSize) flags) = f * pageSize := by
  have hor : (BitVec.ofNat 64 (f * pageSize) ||| flags) &&& addrMask =
      BitVec.ofNat 64 (f * pageSize) &&& addrMask ||| flags &&& addrMask := by
    ext i
    simp [Bool.and_or_distrib_right]
  rw [physOf, entry, hor, frame_and_mask hf, hflags, BitVec.or_zero, toNat_frame hf]

theorem frameOf_entry (hf : f < 2 ^ 40) (hflags : flags &&& addrMask = 0#64) :
    frameOf (entry (f * pageSize) flags) = f := by
  rw [frameOf, physOf_entry hf hflags]
  exact Nat.mul_div_cancel f (by decide)

/-- The address in an entry does not touch its flags. -/
theorem isSet_entry (hf : f < 2 ^ 40) (hflag : addrMask &&& flag = 0#64) :
    isSet (entry (f * pageSize) flags) flag = isSet flags flag := by
  have haddr : isSet (BitVec.ofNat 64 (f * pageSize)) flag = false := by
    rw [← frame_and_mask hf]
    exact isSet_and_zero _ _ _ hflag
  rw [entry, isSet_or, haddr, Bool.false_or]

end

theorem frameOf_lt (w : Word) : frameOf w < 2 ^ 40 := by
  have hle : (w &&& addrMask).toNat ≤ addrMask.toNat := by
    rw [BitVec.toNat_and]
    exact Nat.and_le_right
  have hmask : addrMask.toNat < 2 ^ 40 * pageSize := by decide
  exact Nat.div_lt_of_lt_mul (by rw [Nat.mul_comm]; exact Nat.lt_of_le_of_lt hle hmask)

theorem physOf_eq (w : Word) : physOf w = frameOf w * pageSize := by
  have hlow : physOf w % 2 ^ 12 = 0 := by
    apply Nat.eq_of_testBit_eq
    intro i
    rw [Nat.testBit_mod_two_pow, Nat.zero_testBit]
    by_cases hi : i < 12
    · have hbit : (w &&& addrMask).getLsbD i = false := by
        rw [BitVec.getLsbD_and, getLsbD_addrMask]
        simp [Nat.not_le.mpr hi]
      rw [BitVec.getLsbD] at hbit
      rw [physOf, hbit, Bool.and_false]
    · simp [hi]
  exact (Nat.div_mul_cancel (Nat.dvd_of_mod_eq_zero hlow)).symm

theorem isSet_zero (flag : Word) : isSet 0#64 flag = false := by
  rw [isSet, BitVec.zero_and]
  rfl

@[simp] theorem child_zero : child 0#64 = none := by
  rw [child, isSet_zero]
  rfl

@[simp] theorem owned_zero : owned 0#64 = none := by
  rw [owned, isSet_zero]
  rfl

theorem child_eq_none {w : Word} : child w = none ↔ isSet w ptePresent = false := by
  unfold child
  cases isSet w ptePresent <;> simp

theorem child_eq_some {w : Word} {f : Nat} :
    child w = some f ↔ isSet w ptePresent = true ∧ frameOf w = f := by
  unfold child
  cases isSet w ptePresent <;> simp

theorem owned_eq_some {w : Word} {f : Nat} :
    owned w = some f ↔
      (isSet w ptePresent = true ∧ isSet w pteNopmm = false) ∧ frameOf w = f := by
  unfold owned
  cases isSet w ptePresent <;> cases isSet w pteNopmm <;> simp

end Aeryk.Vm
