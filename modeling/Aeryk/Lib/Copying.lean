import Mathlib.Tactic.Common
import Aeryk.Lib.Bytes
import Aeryk.Lib.Packing

/-!
# Counting loops and copies

The two counting loops of C are `ascending`, which takes a number of turns from a first index on,
and `descending`, which counts down.  Each has one rule: an invariant that speaks of the index is
handed from turn to turn.

`moved m dest src n` is the memory after `n` cells went from `src` to `dest` all at once.  A copy
in pieces comes to the same if no piece is read after it was overwritten: upwards when the
destination lies below the source (`moved_up`), downwards when it lies above (`moved_down`).
-/

namespace Aeryk.Lib

open Function

/-! ## Loops -/

section

variable {σ : Type*}

/-- The loop body runs for `k` indices, counting up from `lo`. -/
def ascending (body : Nat → σ → σ) : Nat → Nat → σ → σ
  | _, 0, s => s
  | lo, k + 1, s => ascending body (lo + 1) k (body lo s)

/-- The loop body runs for `k` indices, counting down from `hi`. -/
def descending (body : Nat → σ → σ) : Nat → Nat → σ → σ
  | _, 0, s => s
  | hi, k + 1, s => descending body (hi - 1) k (body hi s)

variable {body : Nat → σ → σ} {I : Nat → σ → Prop} {lo hi k : Nat} {s : σ}

/-- What holds of the first index and passes from each to the next holds after the last. -/
theorem ascending_rule (hs : I lo s)
    (hbody : ∀ i s, lo ≤ i → i < lo + k → I i s → I (i + 1) (body i s)) :
    I (lo + k) (ascending body lo k s) := by
  induction k generalizing lo s with
  | zero => exact hs
  | succ k ih =>
    have hrest := ih (hbody lo s (le_refl lo) (by omega) hs)
      fun i s hlo hhi => hbody i s (by omega) (by omega)
    rwa [show lo + (k + 1) = lo + 1 + k by omega]

/-- What holds of the first index and passes from each to the one below holds at the end. -/
theorem descending_rule (hs : I hi s)
    (hbody : ∀ i s, hi < i + k → i ≤ hi → I i s → I (i - 1) (body i s)) :
    I (hi - k) (descending body hi k s) := by
  induction k generalizing hi s with
  | zero => exact hs
  | succ k ih =>
    have hrest := ih (hbody hi s (by omega) (le_refl hi) hs)
      fun i s hlo hhi => hbody i s (by omega) (by omega)
    rwa [show hi - (k + 1) = hi - 1 - k by omega]

end

/-! ## Copies -/

/-- Memory after the `n` cells from `src` on were copied to `dest` all at once. -/
def moved {α : Type*} (m : Nat → α) (dest src n : Nat) : Nat → α :=
  fun x => if dest ≤ x ∧ x < dest + n then m (src + (x - dest)) else m x

section

variable {α : Type*} {m : Nat → α} {dest src n k i x : Nat}

@[simp] theorem moved_zero (m : Nat → α) (dest src : Nat) : moved m dest src 0 = m := by
  funext x
  exact if_neg (by omega)

theorem moved_of_lt (hi : i < n) : moved m dest src n (dest + i) = m (src + i) := by
  rw [moved, if_pos (by omega), Nat.add_sub_cancel_left]

theorem moved_of_not_mem (hx : ¬(dest ≤ x ∧ x < dest + n)) : moved m dest src n x = m x :=
  if_neg hx

/-- A copy onto itself changes nothing. -/
@[simp] theorem moved_self (m : Nat → α) (dest n : Nat) : moved m dest dest n = m := by
  funext x
  rw [moved]
  split
  next hx => rw [Nat.add_sub_cancel' hx.1]
  · rfl

/-- The next piece of an upward copy: its source lies above what was written so far, or
apart from it. -/
theorem moved_up (h : dest ≤ src ∨ src + n + k ≤ dest) :
    moved (moved m dest src n) (dest + n) (src + n) k = moved m dest src (n + k) := by
  funext x
  by_cases hx : dest + n ≤ x ∧ x < dest + n + k
  · have hread : src + n + (x - (dest + n)) = src + (x - dest) := by omega
    rw [moved, if_pos hx, hread, moved_of_not_mem (by omega), moved, if_pos (by omega)]
  · rw [moved_of_not_mem hx, moved, moved]
    congr 1
    exact propext ⟨fun h => by omega, fun h => by omega⟩

/-- The next piece of a downward copy: its source lies below what was written so far. -/
theorem moved_down (h : src ≤ dest) :
    moved (moved m (dest + k) (src + k) n) dest src k = moved m dest src (k + n) := by
  funext x
  by_cases hx : dest ≤ x ∧ x < dest + k
  · rw [moved, if_pos hx, moved_of_not_mem (by omega), moved, if_pos (by omega)]
  · rw [moved_of_not_mem hx, moved, moved]
    by_cases hin : dest + k ≤ x ∧ x < dest + k + n
    · have hread : src + k + (x - (dest + k)) = src + (x - dest) := by omega
      rw [if_pos hin, if_pos (by omega), hread]
    · rw [if_neg hin, if_neg (by omega)]

end

/-! ## Loads and stores of eight bytes

Addresses are taken modulo `2 ^ 64`, and a word has its lowest byte first. -/

def offset (p i : Nat) : Nat := (p + i) % 2 ^ 64

theorem offset_eq {p i : Nat} (h : p + i < 2 ^ 64) : offset p i = p + i := Nat.mod_eq_of_lt h

def loadWord (m : Bytes) (p : Nat) : BitVec 64 :=
  BitVec.ofNat 64 (pack (fun k => m (offset p k)) 8)

def storeWord (m : Bytes) (p : Nat) (w : BitVec 64) : Bytes :=
  ascending (fun k m => update m (offset p k) (BitVec.ofNat 8 (w.toNat / 256 ^ k))) 0 8 m

section

variable {m : Bytes} {p q k : Nat}

/-- A store of a word changes its eight bytes. -/
theorem storeWord_eq (hp : p + 8 ≤ 2 ^ 64) (m : Bytes) (w : BitVec 64) :
    storeWord m p w =
      fun x => if p ≤ x ∧ x < p + 8 then BitVec.ofNat 8 (w.toNat / 256 ^ (x - p)) else m x := by
  rw [storeWord]
  apply ascending_rule (k := 8) (I := fun i m' => m' =
    fun x => if p ≤ x ∧ x < p + i then BitVec.ofNat 8 (w.toNat / 256 ^ (x - p)) else m x)
  case hs =>
    funext x
    rw [if_neg (by omega)]
  case hbody =>
    intro i m' _ hi hm'
    subst hm'
    funext x
    rw [offset_eq (by omega)]
    by_cases hx : x = p + i
    · subst hx
      rw [update_self, if_pos (by omega), Nat.add_sub_cancel_left]
    · rw [update_of_ne hx]
      congr 1
      exact propext ⟨fun h => by omega, fun h => by omega⟩

/-- Byte `k` of a loaded word. -/
theorem byte_loadWord (hp : p + 8 ≤ 2 ^ 64) (hk : k < 8) :
    BitVec.ofNat 8 ((loadWord m p).toNat / 256 ^ k) = m (p + k) := by
  have hlt : pack (fun k => m (offset p k)) 8 < 2 ^ 64 := pack_lt _ 8
  have hbyte := pack_byte (b := fun k => m (offset p k)) hk
  rw [offset_eq (by omega)] at hbyte
  rw [loadWord, BitVec.toNat_ofNat, Nat.mod_eq_of_lt hlt]
  apply BitVec.eq_of_toNat_eq
  rw [BitVec.toNat_ofNat]
  exact hbyte

/-- A word that is loaded whole before it is stored copies eight bytes at once. -/
theorem storeWord_loadWord (hp : p + 8 ≤ 2 ^ 64) (hq : q + 8 ≤ 2 ^ 64) (m : Bytes) :
    storeWord m p (loadWord m q) = moved m p q 8 := by
  rw [storeWord_eq hp]
  funext x
  rw [moved]
  split
  next hx => exact byte_loadWord hq (by omega)
  · rfl

/-- A byte is copied. -/
theorem update_eq_moved (m : Bytes) (p q : Nat) : update m p (m q) = moved m p q 1 := by
  funext x
  rw [moved]
  by_cases hx : x = p
  · subst hx
    rw [update_self, if_pos (by omega), Nat.sub_self, Nat.add_zero]
  · rw [update_of_ne hx, if_neg (by omega)]

end

/-! ## Fills

A fill that stores words takes its words from one byte, by doubling. -/

section

variable {b : BitVec 8} {w : BitVec 64} {n k p : Nat}

@[simp] theorem fill_zero (m : Bytes) (p : Nat) (b : BitVec 8) : fill m p 0 b = m := by
  funext x
  exact if_neg (by omega)

/-- A fill in two pieces. -/
theorem fill_append (m : Bytes) (p n k : Nat) (b : BitVec 8) :
    fill (fill m p n b) (p + n) k b = fill m p (n + k) b := by
  funext x
  by_cases hx : p + n ≤ x ∧ x < p + n + k
  · rw [fill_of_mem _ _ hx, fill_of_mem _ _ (by omega)]
  · rw [fill_of_not_mem _ _ hx, fill, fill]
    congr 1
    exact propext ⟨fun h => by omega, fun h => by omega⟩

theorem update_eq_fill (m : Bytes) (p : Nat) (b : BitVec 8) :
    update m p b = fill m p 1 b := by
  funext x
  by_cases hx : x = p
  · subst hx
    rw [update_self, fill_of_mem _ _ (by omega)]
  · rw [update_of_ne hx, fill_of_not_mem _ _ (by omega)]

/-- The word consists of `n` times the byte, and zeros above. -/
def Repeats (b : BitVec 8) (n : Nat) (w : BitVec 64) : Prop :=
  ∀ j < 64, w.getLsbD j = (decide (j < 8 * n) && b.getLsbD (j % 8))

theorem repeats_setWidth (b : BitVec 8) : Repeats b 1 (b.setWidth 64) := by
  intro j hj
  rw [BitVec.getLsbD_setWidth, decide_eq_true hj, Bool.true_and]
  rcases Nat.lt_or_ge j 8 with hlt | hge
  · rw [decide_eq_true hlt, Bool.true_and, Nat.mod_eq_of_lt hlt]
  · rw [decide_eq_false (Nat.not_lt.mpr hge), Bool.false_and, BitVec.getLsbD_of_ge b j hge]

/-- A word put beside itself. -/
theorem Repeats.double (h : Repeats b n w) : Repeats b (n + n) (w ||| w <<< (8 * n)) := by
  intro j hj
  rw [BitVec.getLsbD_or, BitVec.getLsbD_shiftLeft, decide_eq_true hj, Bool.true_and, h j hj]
  rcases Nat.lt_or_ge j (8 * n) with hlt | hge
  · have hsum : j < 8 * (n + n) := by omega
    simp [hlt, hsum]
  · have hmod : (j - 8 * n) % 8 = j % 8 := by omega
    have hiff : j - 8 * n < 8 * n ↔ j < 8 * (n + n) := by omega
    rw [h (j - 8 * n) (by omega), hmod, decide_eq_false (Nat.not_lt.mpr hge), Bool.false_and,
      Bool.false_or, Bool.not_false, Bool.true_and, decide_eq_decide.mpr hiff]

/-- Each byte of a word of eight equal bytes. -/
theorem Repeats.byte (h : Repeats b 8 w) (hk : k < 8) :
    BitVec.ofNat 8 (w.toNat / 256 ^ k) = b := by
  have hpow : 256 ^ k = 2 ^ (8 * k) := by rw [Nat.pow_mul]
  apply BitVec.eq_of_getLsbD_eq
  intro i hi
  have hin : i + 8 * k < 8 * 8 := by omega
  have hmod : (i + 8 * k) % 8 = i := by omega
  have hbit := h (i + 8 * k) (by omega)
  rw [decide_eq_true hin, Bool.true_and, hmod] at hbit
  rw [BitVec.getLsbD_ofNat, decide_eq_true hi, Bool.true_and, hpow, Nat.testBit_div_two_pow]
  exact hbit

/-- A store of a word of eight equal bytes fills eight bytes. -/
theorem storeWord_repeats (h : Repeats b 8 w) (hp : p + 8 ≤ 2 ^ 64) (m : Bytes) :
    storeWord m p w = fill m p 8 b := by
  rw [storeWord_eq hp]
  funext x
  rw [fill]
  split
  next hx => exact h.byte (by omega)
  · rfl

end

end Aeryk.Lib
