import Aeryk.Lib.Cyclic
import Aeryk.Pipe.Buffer

/-!
# The protocol of the compositor

The request a client sends first and the table of window slots, from `compositor-protocol`.  The
proxy of a client fills the `u32` pixels of a slot byte by byte, and the compositor reads them
pixel by pixel, so a slot has the bytes and `pixel?` puts them together.
-/

namespace Aeryk.Compositor

def maxWindows : Nat := 2

def maxWinW : Nat := 320

def maxWinH : Nat := 240

/-- A `u32` as it lies in memory. -/
def leBytes (n : Nat) : List Byte :=
  [BitVec.ofNat 8 n, BitVec.ofNat 8 (n / 2 ^ 8), BitVec.ofNat 8 (n / 2 ^ 16),
    BitVec.ofNat 8 (n / 2 ^ 24)]

/-- The `u32` that lies in memory as four bytes. -/
def ofBytes (a b c d : Byte) : Nat :=
  a.toNat + b.toNat * 2 ^ 8 + c.toNat * 2 ^ 16 + d.toNat * 2 ^ 24

theorem ofBytes_le {n : Nat} (h : n < 2 ^ 32) :
    ofBytes (BitVec.ofNat 8 n) (BitVec.ofNat 8 (n / 2 ^ 8)) (BitVec.ofNat 8 (n / 2 ^ 16))
      (BitVec.ofNat 8 (n / 2 ^ 24)) = n := by
  simp only [ofBytes, BitVec.toNat_ofNat]
  omega

structure WindowRequest where
  width : Nat
  height : Nat
  width_lt : width < 2 ^ 32
  height_lt : height < 2 ^ 32

def WindowRequest.bytes (req : WindowRequest) : List Byte := leBytes req.width ++ leBytes req.height

structure WindowSlot where
  active : Nat
  x : Int
  y : Int
  w : Nat
  h : Nat
  /-- The bytes of `pixels`. -/
  pixels : Nat → Byte

/-- The pixel at an index, and none if the index is out of range. -/
def WindowSlot.pixel? (slot : WindowSlot) (i : Nat) : Option Nat :=
  if i < maxWinW * maxWinH then
    some (ofBytes (slot.pixels (4 * i)) (slot.pixels (4 * i + 1)) (slot.pixels (4 * i + 2))
      (slot.pixels (4 * i + 3)))
  else none

/-- The pixels of a window inside the limits are in range. -/
theorem index_lt {w h row col : Nat} (hw : w ≤ maxWinW) (hh : h ≤ maxWinH) (hrow : row < h)
    (hcol : col < w) : row * w + col < w * h ∧ row * w + col < maxWinW * maxWinH := by
  have hlt : row * w + col < w * h := by
    calc row * w + col < row * w + w := Nat.add_lt_add_left hcol _
      _ = (row + 1) * w := (Nat.succ_mul row w).symm
      _ ≤ h * w := Nat.mul_le_mul_right w hrow
      _ = w * h := Nat.mul_comm h w
  exact ⟨hlt, Nat.lt_of_lt_of_le hlt (Nat.mul_le_mul hw hh)⟩

theorem WindowSlot.exists_pixel (slot : WindowSlot) {i : Nat} (h : i < maxWinW * maxWinH) :
    ∃ a, slot.pixel? i = some a := by
  unfold WindowSlot.pixel?
  rw [if_pos h]
  exact ⟨_, rfl⟩

end Aeryk.Compositor
