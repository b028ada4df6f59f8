import Mathlib.Data.Nat.Bits
import Mathlib.Logic.Function.Basic
import Mathlib.Tactic.Ring

/-!
# Arrays in byte memory

Memory is a function from addresses to bytes.  Two kinds of array lie in it: bits, eight to a byte
with the lowest first, and 16-bit words with the low byte first.  A store to one may hit the other
where they overlap, so lemmas about both ask for the distance between them.
-/

namespace Aeryk.Lib

open Function

abbrev Bytes := Nat → BitVec 8

variable {m : Bytes} {a b i j n v : Nat}

/-! ## Bits -/

def bitAt (m : Bytes) (a i : Nat) : Bool := (m (a + i / 8) &&& (1#8 <<< (i % 8))) != 0#8

/-- Memory after bit `i` of the array at `a` is set. -/
def setBit (m : Bytes) (a i : Nat) : Bytes :=
  update m (a + i / 8) (m (a + i / 8) ||| (1#8 <<< (i % 8)))

/-- Memory after bit `i` of the array at `a` is cleared. -/
def clearBit (m : Bytes) (a i : Nat) : Bytes :=
  update m (a + i / 8) (m (a + i / 8) &&& ~~~(1#8 <<< (i % 8)))

theorem and_one_shiftLeft_ne_zero (v : BitVec 8) {k : Nat} (hk : k < 8) :
    (v &&& (1#8 <<< k) != 0#8) = v.getLsbD k := by
  have hone : 1#8 <<< k = BitVec.twoPow 8 k := rfl
  rw [hone, BitVec.and_twoPow]
  cases hv : v.getLsbD k with
  | false => simp
  | true =>
    have hne : BitVec.twoPow 8 k ≠ 0#8 := by
      intro he
      have := congrArg (fun w => BitVec.getLsbD w k) he
      simp [hk] at this
    simpa using hne

/-- Testing with a mask reads one bit of one byte. -/
theorem bitAt_eq (m : Bytes) (a i : Nat) : bitAt m a i = (m (a + i / 8)).getLsbD (i % 8) :=
  and_one_shiftLeft_ne_zero _ (Nat.mod_lt i (by omega))

theorem getLsbD_one_shiftLeft {k l : Nat} (hl : l < 8) :
    (1#8 <<< k).getLsbD l = decide (l = k) := by
  simp only [BitVec.getLsbD_shiftLeft, BitVec.getLsbD_one]
  by_cases h : l = k
  · subst h
    simp [hl]
  · simp [hl, h]
    omega

/-- Two bits share a byte and a place in it only if they are the same bit. -/
theorem same_bit (hb : a + i / 8 = a + j / 8) (hm : j % 8 = i % 8) : j = i := by
  omega

theorem bitAt_setBit (m : Bytes) (a i j : Nat) :
    bitAt (setBit m a i) a j = (decide (j = i) || bitAt m a j) := by
  rw [bitAt_eq, bitAt_eq, setBit]
  by_cases hb : a + j / 8 = a + i / 8
  · rw [hb, update_self, BitVec.getLsbD_or,
      getLsbD_one_shiftLeft (Nat.mod_lt j (by omega)), Bool.or_comm]
    congr 1
    exact decide_eq_decide.mpr ⟨same_bit hb.symm, fun h => h ▸ rfl⟩
  · have hne : j ≠ i := fun h => hb (h ▸ rfl)
    rw [update_of_ne hb, decide_eq_false hne, Bool.false_or]

theorem bitAt_clearBit (m : Bytes) (a i j : Nat) :
    bitAt (clearBit m a i) a j = (!decide (j = i) && bitAt m a j) := by
  rw [bitAt_eq, bitAt_eq, clearBit]
  by_cases hb : a + j / 8 = a + i / 8
  · have hj : j % 8 < 8 := Nat.mod_lt j (by omega)
    rw [hb, update_self, BitVec.getLsbD_and, BitVec.getLsbD_not,
      getLsbD_one_shiftLeft hj, decide_eq_true hj, Bool.true_and, Bool.and_comm]
    congr 2
    exact decide_eq_decide.mpr ⟨same_bit hb.symm, fun h => h ▸ rfl⟩
  · have hne : j ≠ i := fun h => hb (h ▸ rfl)
    rw [update_of_ne hb, decide_eq_false hne, Bool.not_false, Bool.true_and]

/-! ## Words -/

def wordAt (m : Bytes) (b i : Nat) : Nat :=
  (m (b + 2 * i)).toNat + 256 * (m (b + 2 * i + 1)).toNat

/-- Memory after `v`, cut to 16 bits, is stored as word `i` of the array at `b`. -/
def setWord (m : Bytes) (b i v : Nat) : Bytes :=
  update (update m (b + 2 * i) (BitVec.ofNat 8 v))
    (b + 2 * i + 1) (BitVec.ofNat 8 (v / 256))

theorem wordAt_lt (m : Bytes) (b i : Nat) : wordAt m b i < 65536 := by
  have h0 := (m (b + 2 * i)).isLt
  have h1 := (m (b + 2 * i + 1)).isLt
  unfold wordAt
  omega

theorem wordAt_congr {m' : Bytes} (h0 : m' (b + 2 * i) = m (b + 2 * i))
    (h1 : m' (b + 2 * i + 1) = m (b + 2 * i + 1)) : wordAt m' b i = wordAt m b i := by
  rw [wordAt, wordAt, h0, h1]

theorem wordAt_setWord_same (m : Bytes) (b i v : Nat) :
    wordAt (setWord m b i v) b i = v % 65536 := by
  have hne : b + 2 * i ≠ b + 2 * i + 1 := by omega
  rw [wordAt, setWord, update_self, update_of_ne hne, update_self,
    BitVec.toNat_ofNat, BitVec.toNat_ofNat]
  omega

theorem setWord_of_ne {x : Nat} (h0 : x ≠ b + 2 * i) (h1 : x ≠ b + 2 * i + 1) :
    setWord m b i v x = m x := by
  rw [setWord, update_of_ne h1, update_of_ne h0]

theorem wordAt_setWord_ne (m : Bytes) (b v : Nat) (h : j ≠ i) :
    wordAt (setWord m b i v) b j = wordAt m b j :=
  wordAt_congr (setWord_of_ne (by omega) (by omega)) (setWord_of_ne (by omega) (by omega))

/-! ## The two arrays side by side

The bit array takes the `n` bytes below the word array. -/

theorem bitAt_setWord (h : j / 8 < n) (m : Bytes) (i v : Nat) :
    bitAt (setWord m (a + n) i v) a j = bitAt m a j := by
  rw [bitAt, bitAt, setWord_of_ne (by omega) (by omega)]

theorem wordAt_setBit (h : i / 8 < n) (m : Bytes) (j : Nat) :
    wordAt (setBit m a i) (a + n) j = wordAt m (a + n) j :=
  wordAt_congr (update_of_ne (by omega) ..) (update_of_ne (by omega) ..)

theorem wordAt_clearBit (h : i / 8 < n) (m : Bytes) (j : Nat) :
    wordAt (clearBit m a i) (a + n) j = wordAt m (a + n) j :=
  wordAt_congr (update_of_ne (by omega) ..) (update_of_ne (by omega) ..)

/-! ## Filling -/

/-- Memory after `n` bytes from `a` on are set to `v`. -/
def fill (m : Bytes) (a n : Nat) (v : BitVec 8) : Bytes :=
  fun x => if a ≤ x ∧ x < a + n then v else m x

theorem fill_of_mem {x : Nat} (m : Bytes) (v : BitVec 8) (h : a ≤ x ∧ x < a + n) :
    fill m a n v x = v := if_pos h

theorem fill_of_not_mem {x : Nat} (m : Bytes) (v : BitVec 8) (h : ¬(a ≤ x ∧ x < a + n)) :
    fill m a n v x = m x := if_neg h

end Aeryk.Lib
