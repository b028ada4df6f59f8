import Aeryk.Elf.Loader

/-!
# The arguments on the user stack

`setup_user_stack_args` of `process.c`.  The strings are pushed from the top of the stack page
downwards, each with its terminator; below them, on an 8-byte boundary, stands the array of
pointers to them, and below that the pair of `argc` and its address.  The answer is the address of
the pair, or 0 if the page is too small.

The kernel writes the page at `hhdm`, and the program will see it at `base`.  Memory is not cut at
the ends of the page, and the subtractions are those of 64-bit numbers: a store below the page would
be seen in memory outside it.
-/

namespace Aeryk.Elf

open Mem

def maxUserArgs : Nat := 8

/-- Unsigned subtraction of 64-bit numbers. -/
def sub64 (a b : Nat) : Nat := (a + 2 ^ 64 - b) % 2 ^ 64

def storeBytes (mem : Nat → Byte) (a : Nat) (bytes : List Byte) : Nat → Byte := fun x =>
  if a ≤ x ∧ x < a + bytes.length then bytes.getD (x - a) 0#8 else mem x

/-- The bytes of a 64-bit number, the lowest first. -/
def wordBytes (n : Nat) : List Byte := (List.range 8).map fun k => BitVec.ofNat 8 (n / 256 ^ k)

/-- The loop over `n` strings from `argv[i]` on.  The answer is `cur` after it with the addresses
of the strings, or `none` if one does not fit. -/
def pushStrings (hhdm base : Nat) (argv : Nat → List Byte) :
    Nat → Nat → Nat → (Nat → Byte) → (Nat → Byte) × Option (Nat × List Nat)
  | 0, _, cur, mem => (mem, some (cur, []))
  | n + 1, i, cur, mem =>
    let len := (argv i).length + 1
    if sub64 cur base < len then (mem, none)
    else
      let r := pushStrings hhdm base argv n (i + 1) (sub64 cur len)
        (storeBytes mem (hhdm + sub64 (sub64 cur len) base) (argv i ++ [0#8]))
      (r.1, r.2.map fun e => (e.1, sub64 cur len :: e.2))

def setupUserStackArgs (mem : Nat → Byte) (hhdm base : Nat) (argc : Int) (argv : Nat → List Byte) :
    (Nat → Byte) × Nat :=
  if argc ≤ 0 ∨ argc > maxUserArgs then (mem, 0)
  else
    let r := pushStrings hhdm base argv argc.toNat 0 (base + pageSize) mem
    match r.2 with
    | none => (r.1, 0)
    | some (cur, strVaddrs) =>
      let aligned := cur / 8 * 8
      let arrSize := (argc.toNat + 1) * 8
      if sub64 aligned base < arrSize then (r.1, 0)
      else
        let argvVaddr := sub64 aligned arrSize
        let mem := storeBytes r.1 (hhdm + sub64 argvVaddr base)
          ((strVaddrs ++ [0]).flatMap wordBytes)
        if sub64 argvVaddr base < 16 then (mem, 0)
        else
          (storeBytes mem (hhdm + sub64 (sub64 argvVaddr 16) base)
            (wordBytes argc.toNat ++ wordBytes argvVaddr), sub64 argvVaddr 16)

/-- The bytes of `n` strings from `argv[i]` on, with their terminators. -/
def stringBytes (argv : Nat → List Byte) : Nat → Nat → Nat
  | 0, _ => 0
  | n + 1, i => (argv i).length + 1 + stringBytes argv n (i + 1)

/-- The strings, the array and the pair fit into a page. -/
def ArgsFit (argc : Int) (argv : Nat → List Byte) : Prop :=
  0 < argc ∧ argc ≤ maxUserArgs ∧ stringBytes argv argc.toNat 0 ≤ pageSize ∧
    (argc.toNat + 1) * 8 + 16 ≤ (pageSize - stringBytes argv argc.toNat 0) / 8 * 8

instance (argc : Int) (argv : Nat → List Byte) : Decidable (ArgsFit argc argv) :=
  inferInstanceAs (Decidable (_ ∧ _ ∧ _ ∧ _))

theorem sub64_eq {a b : Nat} (hle : b ≤ a) (ha : a < 2 ^ 64) : sub64 a b = a - b := by
  unfold sub64
  omega

section

variable {hhdm base i n cur : Nat} {argv : Nat → List Byte} {mem : Nat → Byte} {argc : Int}

/-- A turn of the loop, from inside the page. -/
theorem pushStrings_succ (hcur : base ≤ cur) (hend : cur < 2 ^ 64) :
    pushStrings hhdm base argv (n + 1) i cur mem =
      if cur < base + ((argv i).length + 1) then (mem, none)
      else
        let r := pushStrings hhdm base argv n (i + 1) (cur - ((argv i).length + 1))
          (storeBytes mem (hhdm + (cur - ((argv i).length + 1) - base)) (argv i ++ [0#8]))
        (r.1, r.2.map fun e => (e.1, (cur - ((argv i).length + 1)) :: e.2)) := by
  rw [pushStrings]
  dsimp only
  rw [sub64_eq hcur hend]
  by_cases hlen : cur - base < (argv i).length + 1
  · rw [if_pos hlen, if_pos (by omega)]
  · rw [if_neg hlen, if_neg (by omega), sub64_eq (by omega) hend, sub64_eq (by omega) (by omega)]

/-- The strings fit exactly if there is room for their bytes. -/
theorem pushStrings_cases (hcur : base ≤ cur) (hend : cur < 2 ^ 64) :
    (base + stringBytes argv n i ≤ cur ∧ ∃ vaddrs,
        (pushStrings hhdm base argv n i cur mem).2 = some (cur - stringBytes argv n i, vaddrs)) ∨
      (cur < base + stringBytes argv n i ∧ (pushStrings hhdm base argv n i cur mem).2 = none) := by
  induction n generalizing i cur mem with
  | zero => exact .inl ⟨hcur, [], rfl⟩
  | succ n ih =>
    rw [pushStrings_succ hcur hend, stringBytes]
    by_cases hlen : cur < base + ((argv i).length + 1)
    · rw [if_pos hlen]
      exact .inr ⟨by omega, rfl⟩
    · rw [if_neg hlen]
      dsimp only
      rcases @ih (i + 1) (cur - ((argv i).length + 1)) (storeBytes mem
          (hhdm + (cur - ((argv i).length + 1) - base)) (argv i ++ [0#8])) (by omega)
          (by omega) with
        ⟨hle, vaddrs, heq⟩ | ⟨hlt, heq⟩
      · rw [heq, Nat.sub_sub]
        exact .inl ⟨by omega, _, rfl⟩
      · rw [heq]
        exact .inr ⟨by omega, rfl⟩

/-- What follows the strings, if they end at `low` inside the page. -/
theorem setupUserStackArgs_eq (hargc : 0 < argc ∧ argc ≤ maxUserArgs) (haligned : base % 8 = 0)
    {low : Nat} {vs : List Nat} (hlow : base ≤ low) (hend : low < 2 ^ 64)
    (hpush : (pushStrings hhdm base argv argc.toNat 0 (base + pageSize) mem).2 = some (low, vs)) :
    setupUserStackArgs mem hhdm base argc argv =
      let strings := (pushStrings hhdm base argv argc.toNat 0 (base + pageSize) mem).1
      let arr := low / 8 * 8 - (argc.toNat + 1) * 8
      if low / 8 * 8 < base + (argc.toNat + 1) * 8 then (strings, 0)
      else
        let array := storeBytes strings (hhdm + (arr - base)) ((vs ++ [0]).flatMap wordBytes)
        if arr < base + 16 then (array, 0)
        else
          (storeBytes array (hhdm + (arr - 16 - base)) (wordBytes argc.toNat ++ wordBytes arr),
            arr - 16) := by
  rw [setupUserStackArgs, if_neg (by omega)]
  dsimp only
  rw [hpush]
  dsimp only
  rw [sub64_eq (by omega) (by omega)]
  by_cases harr : low / 8 * 8 - base < (argc.toNat + 1) * 8
  · rw [if_pos harr, if_pos (by omega)]
  have hroom : ¬low / 8 * 8 < base + (argc.toNat + 1) * 8 := by omega
  have harray : sub64 (low / 8 * 8) ((argc.toNat + 1) * 8) =
      low / 8 * 8 - (argc.toNat + 1) * 8 := sub64_eq (by omega) (by omega)
  rw [if_neg harr, if_neg hroom, harray, sub64_eq (by omega) (by omega)]
  by_cases hpair : low / 8 * 8 - (argc.toNat + 1) * 8 - base < 16
  · rw [if_pos hpair, if_pos (by omega)]
  · have hheader : sub64 (low / 8 * 8 - (argc.toNat + 1) * 8) 16 =
        low / 8 * 8 - (argc.toNat + 1) * 8 - 16 := sub64_eq (by omega) (by omega)
    rw [if_neg hpair, if_neg (by omega), hheader, sub64_eq (by omega) (by omega)]

/-- A stack pointer is given exactly if the arguments fit. -/
theorem setupUserStackArgs_iff (hbase : 0 < base) (haligned : base % pageSize = 0)
    (hend : base + pageSize < 2 ^ 64) :
    (setupUserStackArgs mem hhdm base argc argv).2 ≠ 0 ↔ ArgsFit argc argv := by
  have hbase8 : base % 8 = 0 := by
    unfold pageSize at haligned
    omega
  unfold ArgsFit
  by_cases hargc : argc ≤ 0 ∨ argc > maxUserArgs
  · rw [setupUserStackArgs, if_pos hargc]
    refine ⟨fun h => absurd rfl h, fun h => ?_⟩
    omega
  · rcases @pushStrings_cases hhdm base 0 argc.toNat (base + pageSize) argv mem (by omega) hend with
      ⟨hle, vaddrs, heq⟩ | ⟨hlt, heq⟩
    · rw [setupUserStackArgs_eq (by omega) hbase8 (by omega) (by omega) heq]
      dsimp only
      generalize stringBytes argv argc.toNat 0 = total at *
      unfold pageSize at *
      by_cases harr : (base + 4096 - total) / 8 * 8 < base + (argc.toNat + 1) * 8
      · rw [if_pos harr]
        refine ⟨fun h => absurd rfl h, fun h => ?_⟩
        omega
      · rw [if_neg harr]
        by_cases hpair : (base + 4096 - total) / 8 * 8 - (argc.toNat + 1) * 8 < base + 16
        · rw [if_pos hpair]
          refine ⟨fun h => absurd rfl h, fun h => ?_⟩
          omega
        · rw [if_neg hpair]
          dsimp only
          omega
    · rw [setupUserStackArgs, if_neg hargc]
      dsimp only
      rw [heq]
      refine ⟨fun h => absurd rfl h, fun h => ?_⟩
      omega

end

end Aeryk.Elf
