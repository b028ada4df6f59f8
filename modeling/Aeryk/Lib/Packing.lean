import Mathlib.Algebra.GroupWithZero.Nat
import Mathlib.Data.Nat.Basic

/-!
# Bytes and words

Memory as bytes and as words of eight bytes each, the lowest byte first.
-/

namespace Aeryk.Lib

/-- The number made of the first `n` bytes. -/
def pack (b : Nat → BitVec 8) : Nat → Nat
  | 0 => 0
  | n + 1 => (b 0).toNat + 256 * pack (fun i => b (i + 1)) n

def wordsOf (b : Nat → BitVec 8) (j : Nat) : BitVec 64 :=
  BitVec.ofNat 64 (pack (fun i => b (8 * j + i)) 8)

def byteOf (ws : Nat → BitVec 64) (i : Nat) : BitVec 8 :=
  BitVec.ofNat 8 ((ws (i / 8)).toNat / 256 ^ (i % 8))

section

variable {b : Nat → BitVec 8} {n i : Nat}

theorem pack_lt (b : Nat → BitVec 8) (n : Nat) : pack b n < 256 ^ n := by
  induction n generalizing b with
  | zero => exact Nat.one_pos
  | succ n ih =>
    have hrest := ih fun i => b (i + 1)
    have hfirst := (b 0).isLt
    rw [pack, Nat.pow_succ]
    omega

/-- Each byte can be read back from the number. -/
theorem pack_byte (hi : i < n) : pack b n / 256 ^ i % 256 = (b i).toNat := by
  induction i generalizing b n with
  | zero =>
    obtain ⟨n, rfl⟩ := Nat.exists_eq_succ_of_ne_zero (Nat.ne_of_gt hi)
    have hfirst := (b 0).isLt
    rw [pack, Nat.pow_zero, Nat.div_one]
    omega
  | succ i ih =>
    obtain ⟨n, rfl⟩ := Nat.exists_eq_succ_of_ne_zero (Nat.ne_of_gt (Nat.zero_lt_of_lt hi))
    have hfirst := (b 0).isLt
    have hshift : ((b 0).toNat + 256 * pack (fun i => b (i + 1)) n) / 256 =
        pack (fun i => b (i + 1)) n := by omega
    rw [pack, Nat.pow_succ, Nat.mul_comm (256 ^ i) 256, ← Nat.div_div_eq_div_mul, hshift]
    exact ih (Nat.lt_of_succ_lt_succ hi)

/-- The number depends on the bytes it is made of. -/
theorem pack_congr {b' : Nat → BitVec 8} (h : ∀ k < n, b k = b' k) : pack b n = pack b' n := by
  induction n generalizing b b' with
  | zero => rfl
  | succ n ih =>
    rw [pack, pack, h 0 (Nat.zero_lt_succ n), ih fun k hk => h (k + 1) (Nat.succ_lt_succ hk)]

/-- A number is made of its bytes. -/
theorem pack_bytes (v n : Nat) : pack (fun k => BitVec.ofNat 8 (v / 256 ^ k)) n = v % 256 ^ n := by
  induction n generalizing v with
  | zero => rw [pack, Nat.pow_zero, Nat.mod_one]
  | succ n ih =>
    have hshift : pack (fun k => BitVec.ofNat 8 (v / 256 ^ (k + 1))) n = v / 256 % 256 ^ n := by
      rw [← ih]
      apply pack_congr
      intro k _
      rw [Nat.pow_succ, Nat.mul_comm, Nat.div_div_eq_div_mul]
    have hpow : 256 ^ (n + 1) = 256 * 256 ^ n := by rw [Nat.pow_succ, Nat.mul_comm]
    rw [pack, hshift, BitVec.toNat_ofNat, Nat.pow_zero, Nat.div_one, hpow, Nat.mod_mul]

/-- Packing bytes into words loses none. -/
theorem byteOf_wordsOf (b : Nat → BitVec 8) : byteOf (wordsOf b) = b := by
  funext i
  have hlt : pack (fun k => b (8 * (i / 8) + k)) 8 < 2 ^ 64 := pack_lt _ 8
  have hbyte := pack_byte (b := fun k => b (8 * (i / 8) + k)) (Nat.mod_lt i (by decide : 0 < 8))
  rw [Nat.div_add_mod] at hbyte
  unfold byteOf wordsOf
  rw [BitVec.toNat_ofNat, Nat.mod_eq_of_lt hlt]
  apply BitVec.eq_of_toNat_eq
  rw [BitVec.toNat_ofNat]
  exact hbyte

end

end Aeryk.Lib
