import Aeryk.Pipe.Buffer
import Aeryk.Lib.Bytes

/-!
# Reads from a regular file

`SYS_read` on a descriptor of a `VFS_FILE` node copies bytes of the node's data, which are in
kernel memory, and moves the offset of the descriptor.  The count is cut to 32 bits, and so is the
sum of offset and count that is compared with the size of the file.  A sum that wraps passes the
comparison, and bytes behind the data go out.

One call is `Exact`, and a sequence of calls `Sequential`, if and only if the calls `Fits`.
-/

namespace Aeryk.Fs

open List Lib

/-- A node of type `VFS_FILE`: its `size`, of 32 bits, and the address of its `data`. -/
structure File where
  size : Nat
  data : Nat
  size_lt : size < 2 ^ 32

/-- The bytes of kernel memory from an address on. -/
def bytesAt (mem : Bytes) (a n : Nat) : List Byte := (range n).map fun i => mem (a + i)

def File.contents (file : File) (mem : Bytes) : List Byte := bytesAt mem file.data file.size

/-- What a call has done: the value in `rax`, the bytes given to the caller, and the offset. -/
structure Answer where
  rax : Nat
  copied : List Byte
  offset : Nat

/-- `SYS_open` leaves a descriptor at the start of the file. -/
def openOffset : Nat := 0

/-- `bytes_to_read`, after the comparison with the size. -/
def bytesToRead (file : File) (offset rdx : Nat) : Nat :=
  if (offset + rdx % 2 ^ 32) % 2 ^ 32 > file.size then (file.size + 2 ^ 32 - offset) % 2 ^ 32
  else rdx % 2 ^ 32

/-- `SYS_read` on a regular file, with a buffer that `copy_to_user` can write. -/
def sysRead (mem : Bytes) (file : File) (offset rdx : Nat) : Answer :=
  let n := bytesToRead file offset rdx
  if n > 0 then ⟨n, bytesAt mem (file.data + offset) n, (offset + n) % 2 ^ 32⟩
  else ⟨n, [], offset⟩

/-- One call after the other on one descriptor. -/
def reads (mem : Bytes) (file : File) : Nat → List Nat → List Answer
  | _, [] => []
  | offset, rdx :: rest =>
    sysRead mem file offset rdx :: reads mem file (sysRead mem file offset rdx).offset rest

/-! ## The promise -/

/-- The call returns as many bytes as are asked for and left, and gives those of the file. -/
structure Exact (mem : Bytes) (file : File) (offset rdx : Nat) : Prop where
  rax : (sysRead mem file offset rdx).rax = min rdx (file.size - offset)
  copied : (sysRead mem file offset rdx).copied =
    ((file.contents mem).drop offset).take (min rdx (file.size - offset))
  moved : (sysRead mem file offset rdx).offset = offset + min rdx (file.size - offset)
  inside : (sysRead mem file offset rdx).offset ≤ file.size

/-- Every call of the sequence is exact at the offset it finds. -/
def AllExact (mem : Bytes) (file : File) : Nat → List Nat → Prop
  | _, [] => True
  | offset, rdx :: rest =>
    Exact mem file offset rdx ∧ AllExact mem file (sysRead mem file offset rdx).offset rest

/-- All calls on a new descriptor are exact, and what they give is the start of the file. -/
structure Sequential (mem : Bytes) (file : File) (counts : List Nat) : Prop where
  exact : AllExact mem file openOffset counts
  start : ((reads mem file openOffset counts).map Answer.copied).flatten <+: file.contents mem

/-! ## When it is kept -/

/-- Offset and count do not wrap, and a count that is cut to 32 bits is enough for the rest of the
file. -/
def Fits (file : File) (offset rdx : Nat) : Prop :=
  offset + rdx % 2 ^ 32 < 2 ^ 32 ∧ (rdx < 2 ^ 32 ∨ file.size - offset ≤ rdx % 2 ^ 32)

instance (file : File) (offset rdx : Nat) : Decidable (Fits file offset rdx) :=
  inferInstanceAs (Decidable (_ ∧ _))

/-- Every count fits at the offset where the counts before it have led. -/
def AllFit (file : File) : Nat → List Nat → Prop
  | _, [] => True
  | offset, rdx :: rest =>
    Fits file offset rdx ∧ AllFit file (offset + min rdx (file.size - offset)) rest

variable {mem : Bytes} {file : File} {offset rdx : Nat} {counts : List Nat}

theorem bytesAt_zero (mem : Bytes) (a : Nat) : bytesAt mem a 0 = [] := rfl

theorem length_contents (mem : Bytes) (file : File) :
    (file.contents mem).length = file.size := by
  simp [File.contents, bytesAt]

/-- Bytes inside the data are bytes of the file. -/
theorem bytesAt_inside {n : Nat} (h : offset + n ≤ file.size) :
    bytesAt mem (file.data + offset) n = ((file.contents mem).drop offset).take n := by
  refine ext_getElem ?_ fun i hi hi' => ?_
  · rw [length_take, length_drop, length_contents]
    simp only [bytesAt, length_map, length_range]
    omega
  · simp only [bytesAt, File.contents, getElem_map, getElem_range, getElem_take,
      getElem_drop, Nat.add_assoc]

/-- A call that copies nothing is no other case. -/
theorem sysRead_eq (mem : Bytes) (rdx : Nat) (h : offset ≤ file.size) :
    sysRead mem file offset rdx =
      ⟨bytesToRead file offset rdx,
        bytesAt mem (file.data + offset) (bytesToRead file offset rdx),
        (offset + bytesToRead file offset rdx) % 2 ^ 32⟩ := by
  have hlt := Nat.lt_of_le_of_lt h file.size_lt
  unfold sysRead
  dsimp only
  split
  · rfl
  next hzero =>
    rw [Nat.eq_zero_of_not_pos hzero, Nat.add_zero, Nat.mod_eq_of_lt hlt, bytesAt_zero]

/-- The number of bytes, without the cuts. -/
theorem bytesToRead_eq (h : offset ≤ file.size) :
    bytesToRead file offset rdx =
      if offset + rdx % 2 ^ 32 < 2 ^ 32 then min (rdx % 2 ^ 32) (file.size - offset)
      else rdx % 2 ^ 32 := by
  have hsize := file.size_lt
  have hasked := Nat.mod_lt rdx (Nat.two_pow_pos 32)
  have hrest : (file.size + 2 ^ 32 - offset) % 2 ^ 32 = file.size - offset := by omega
  unfold bytesToRead
  rw [hrest]
  generalize rdx % 2 ^ 32 = asked at *
  by_cases hwrap : offset + asked < 2 ^ 32
  · rw [if_pos hwrap, Nat.mod_eq_of_lt hwrap]
    split <;> omega
  · have hsum : (offset + asked) % 2 ^ 32 = offset + asked - 2 ^ 32 := by omega
    rw [if_neg hwrap, hsum, if_neg (by omega)]

/-- A call is exact if it goes for the right number of bytes. -/
theorem exact_iff_bytesToRead (h : offset ≤ file.size) :
    Exact mem file offset rdx ↔ bytesToRead file offset rdx = min rdx (file.size - offset) := by
  have hsize := file.size_lt
  have heq := sysRead_eq mem rdx h
  constructor
  · intro hexact
    rw [← hexact.rax, heq]
  · intro hcount
    rw [hcount] at heq
    have hinside : (offset + min rdx (file.size - offset)) % 2 ^ 32 =
        offset + min rdx (file.size - offset) := Nat.mod_eq_of_lt (by omega)
    rw [hinside] at heq
    exact
      { rax := by rw [heq]
        copied := by
          rw [heq]
          exact bytesAt_inside (by omega)
        moved := by rw [heq]
        inside := by
          rw [heq]
          dsimp only
          omega }

/-- A call is exact if and only if it fits. -/
theorem exact_iff (h : offset ≤ file.size) :
    Exact mem file offset rdx ↔ Fits file offset rdx := by
  have hsize := file.size_lt
  have hasked := Nat.mod_lt rdx (Nat.two_pow_pos 32)
  have hmod := Nat.mod_le rdx (2 ^ 32)
  rw [exact_iff_bytesToRead h, bytesToRead_eq h]
  unfold Fits
  split
  next hlt =>
    constructor
    · intro hmin
      refine ⟨hlt, ?_⟩
      by_cases hsmall : rdx < 2 ^ 32
      · exact .inl hsmall
      · exact .inr (by omega)
    · rintro ⟨-, hsmall | hrest⟩
      · rw [Nat.mod_eq_of_lt hsmall]
      · omega
  next hge => exact iff_of_false (by omega) fun hfits => hge hfits.1

theorem allExact_iff (h : offset ≤ file.size) :
    AllExact mem file offset counts ↔ AllFit file offset counts := by
  induction counts generalizing offset with
  | nil => exact Iff.rfl
  | cons rdx rest ih =>
    unfold AllExact AllFit
    rw [exact_iff h]
    refine and_congr_right fun hfits => ?_
    have hexact : Exact mem file offset rdx := (exact_iff h).mpr hfits
    rw [ih hexact.inside, hexact.moved]

/-- Exact calls give one piece of the file after the other. -/
theorem AllExact.flatten (h : offset ≤ file.size) (hall : AllExact mem file offset counts) :
    ((reads mem file offset counts).map Answer.copied).flatten =
      ((file.contents mem).drop offset).take counts.sum := by
  induction counts generalizing offset with
  | nil => rfl
  | cons rdx rest ih =>
    obtain ⟨hexact, hrest⟩ := hall
    have hlen : ((file.contents mem).drop offset).length = file.size - offset := by
      rw [length_drop, length_contents]
    have hnext := ih hexact.inside hrest
    rw [hexact.moved, ← drop_drop] at hnext
    unfold reads
    rw [map_cons, flatten_cons, hexact.copied, hexact.moved, hnext, sum_cons, ← hlen]
    generalize (file.contents mem).drop offset = left
    rcases Nat.le_total rdx left.length with hle | hle
    · rw [Nat.min_eq_left hle, take_add]
    · rw [Nat.min_eq_right hle, drop_length, take_nil, append_nil, take_length,
        take_of_length_le (by omega)]

/-- A sequence of reads is bounded and sequential if and only if every count fits. -/
theorem reads_sequential_iff (mem : Bytes) (file : File) (counts : List Nat) :
    Sequential mem file counts ↔ AllFit file openOffset counts := by
  have hstart : openOffset ≤ file.size := Nat.zero_le _
  constructor
  · intro h
    exact (allExact_iff hstart).mp h.exact
  · intro h
    have hall : AllExact mem file openOffset counts := (allExact_iff hstart).mpr h
    refine ⟨hall, ?_⟩
    rw [hall.flatten hstart]
    exact take_prefix _ _

/-- After five of ten bytes a call for `2 ^ 32 - 3` gets all of them, and the descriptor goes
back. -/
theorem reads_past_end :
    let mem : Bytes := fun a => BitVec.ofNat 8 a
    let file : File := ⟨10, 0x1000, by decide⟩
    (sysRead mem file 5 (2 ^ 32 - 3)).rax = 2 ^ 32 - 3 ∧
      (sysRead mem file 5 (2 ^ 32 - 3)).offset = 2 ∧
      ¬Sequential mem file [5, 2 ^ 32 - 3] := by
  intro mem file
  have hnot : ¬Fits file 5 (2 ^ 32 - 3) := by decide
  have hcount : bytesToRead file 5 (2 ^ 32 - 3) = 2 ^ 32 - 3 := by decide
  rw [sysRead_eq mem _ (show 5 ≤ file.size by decide), hcount]
  refine ⟨rfl, rfl, fun h => hnot ?_⟩
  have hall := (allExact_iff (Nat.zero_le _)).mp h.exact
  exact hall.2.1

end Aeryk.Fs
