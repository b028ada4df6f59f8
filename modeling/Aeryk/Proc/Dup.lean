import Aeryk.Proc.Descriptors
import Aeryk.User.Syscalls

/-!
# What a duplicated descriptor is good for

`SYS_dup2` copies one slot of the descriptor table to another.  `SYS_read` and `SYS_write` look at
the number of the slot before they look at what is in it: 0 is the keyboard unless it holds a read
end, 1 the screen unless it holds a write end, 2 is refused, and only from 3 on a slot is taken for
what it is.

A call is described by what it works on (`Device`) and by what it does to the memory of its caller
and returns, a `User.Handler`; what reaches a blocked call from outside is in `Io`.  Two calls do
the same if both agree; for a file the slot whose offset moves is left open.
-/

namespace Aeryk

namespace Kernel

/-- What a call takes from or changes, beside the memory of its caller. -/
inductive Device where
  | none
  | keyboard
  | screen
  | pipe (p : Option Nat)
  /-- The offset of a slot moves to a new value. -/
  | offset (slot value : Nat)

/-- The same, without the number of the slot. -/
def Device.anySlot : Device → Device
  | .offset _ value => .offset 0 value
  | d => d

structure Doing where
  device : Device
  handler : User.Handler

/-- The same result and the same effect, up to which slot's offset moves. -/
def Doing.Same (a b : Doing) : Prop :=
  a.handler = b.handler ∧ a.device.anySlot = b.device.anySlot

structure Io where
  /-- The bytes `kbd_buf_pop` gives. -/
  keys : List Byte
  /-- The bytes that arrive at a pipe, and whether its last writer then closes. -/
  arrives : Option Nat → List Byte
  writersGo : Option Nat → Bool
  /-- The bytes that are taken out of a pipe, and whether its last reader then closes. -/
  takes : Option Nat → Nat
  readersGo : Option Nat → Bool

/-- The nodes of the file system: the data of a `VFS_FILE`, and `none` for a directory. -/
abbrev Nodes := Option Nat → Option (List Byte)

/-! ## The calls -/

def Doing.badf : Doing := ⟨.none, .done (-Errno.ebadf.code)⟩

namespace Io

/-- `pipe_read`, with `(int)frame->rdx`. -/
def pipeRead (io : Io) (p : Option Nat) (rsi rdx : Nat) : Doing :=
  ⟨.pipe p, User.pipeRead (io.arrives p) (io.writersGo p) rsi (User.toInt rdx)⟩

def pipeWrite (io : Io) (p : Option Nat) (rsi rdx : Nat) : Doing :=
  ⟨.pipe p, User.pipeWrite (io.takes p) (io.readersGo p) rsi (User.toInt rdx)⟩

def keyboardRead (io : Io) (rsi rdx : Nat) : Doing :=
  ⟨.keyboard, User.keyboardRead io.keys rsi (User.toInt rdx)⟩

def printN (rsi rdx : Nat) : Doing := ⟨.screen, User.printN rsi rdx (.done rdx)⟩

/-- The branch of `SYS_read` for a file. -/
def fileRead (slot : Nat) (fd : FileDescriptor) (data : List Byte) (rsi rdx : Nat) : Doing :=
  let n := User.fileBytes data fd.offset rdx
  ⟨.offset slot (if n > 0 then (fd.offset + n) % 2 ^ 32 else fd.offset),
    User.copyToUser rsi (User.fileRead data fd.offset rdx) (.done n) (.done (-Errno.efault.code))⟩

def sysRead (io : Io) (nodes : Nodes) (k : Kernel) (rdi rsi rdx : Nat) : Doing :=
  if rdi = 0 ∧ (k.fd k.current 0).type = .pipeRead then
    io.pipeRead (k.fd k.current 0).pipe rsi rdx
  else if rdi = 0 then io.keyboardRead rsi rdx
  else if h : rdi ≥ 3 ∧ rdi < maxFds then
    let fd := k.fd k.current ⟨rdi, h.2⟩
    if fd.type = .pipeRead then io.pipeRead fd.pipe rsi rdx
    else
      match fd.type, nodes fd.node with
      | .vfs, some data => fileRead rdi fd data rsi rdx
      | _, _ => .badf
  else .badf

def sysWrite (io : Io) (k : Kernel) (rdi rsi rdx : Nat) : Doing :=
  if rdi = 1 ∧ (k.fd k.current 1).type = .pipeWrite then
    io.pipeWrite (k.fd k.current 1).pipe rsi rdx
  else if rdi = 1 then printN rsi rdx
  else if h : rdi ≥ 3 ∧ rdi < maxFds then
    let fd := k.fd k.current ⟨rdi, h.2⟩
    if fd.type = .pipeWrite then io.pipeWrite fd.pipe rsi rdx else .badf
  else .badf

end Io

/-- Reads and writes on slot `n` do what they do on slot `o`. -/
def Aliases (nodes : Nodes) (k : Kernel) (o n : Fin maxFds) : Prop :=
  ∀ (io : Io) (rsi rdx : Nat),
    (io.sysRead nodes k n rsi rdx).Same (io.sysRead nodes k o rsi rdx) ∧
      (io.sysWrite k n rsi rdx).Same (io.sysWrite k o rsi rdx)

/-- The numbers at which a descriptor is taken for the same. -/
def Interchangeable (nodes : Nodes) (fd : FileDescriptor) (o n : Fin maxFds) : Prop :=
  match fd.type with
  | .none => False
  | .pipeRead => (o.val = 0 ∨ 3 ≤ o.val) ∧ (n.val = 0 ∨ 3 ≤ n.val)
  | .pipeWrite => (o.val = 1 ∨ 3 ≤ o.val) ∧ (n.val = 1 ∨ 3 ≤ n.val)
  | .vfs =>
    match nodes fd.node with
    | some _ => 3 ≤ o.val ∧ 3 ≤ n.val
    | none => 2 ≤ o.val ∧ 2 ≤ n.val

/-! ## What a number and a slot come to -/

section

variable {io : Io} {nodes : Nodes} {k : Kernel} {i : Fin maxFds} {rsi rdx : Nat}
  {data : List Byte}

theorem sysRead_pipe (hi : i.val = 0 ∨ 3 ≤ i.val) (ht : (k.fd k.current i).type = .pipeRead) :
    io.sysRead nodes k i rsi rdx = io.pipeRead (k.fd k.current i).pipe rsi rdx := by
  unfold Io.sysRead
  rcases hi with hi | hi
  · obtain rfl : i = 0 := Fin.ext hi
    rw [if_pos ⟨rfl, ht⟩]
  · rw [if_neg (by omega), if_neg (by omega), dif_pos ⟨hi, i.isLt⟩]
    rw [if_pos ht]

theorem sysRead_keyboard (hi : i.val = 0) (ht : (k.fd k.current i).type ≠ .pipeRead) :
    io.sysRead nodes k i rsi rdx = io.keyboardRead rsi rdx := by
  obtain rfl : i = 0 := Fin.ext hi
  unfold Io.sysRead
  rw [if_neg fun h => ht h.2, if_pos hi]

theorem sysRead_file (hi : 3 ≤ i.val) (ht : (k.fd k.current i).type = .vfs)
    (hd : nodes (k.fd k.current i).node = some data) :
    io.sysRead nodes k i rsi rdx = Io.fileRead i (k.fd k.current i) data rsi rdx := by
  unfold Io.sysRead
  rw [if_neg (by omega), if_neg (by omega), dif_pos ⟨hi, i.isLt⟩]
  dsimp only
  rw [ht, hd, if_neg (by decide)]

theorem sysRead_low (hi : i.val = 1 ∨ i.val = 2) : io.sysRead nodes k i rsi rdx = .badf := by
  unfold Io.sysRead
  rw [if_neg (by omega), if_neg (by omega), dif_neg (by omega)]

theorem sysRead_other (hi : i.val ≠ 0)
    (ht : (k.fd k.current i).type = .pipeWrite ∨ (k.fd k.current i).type = .none) :
    io.sysRead nodes k i rsi rdx = .badf := by
  unfold Io.sysRead
  rw [if_neg (by omega), if_neg hi]
  split
  · dsimp only
    rcases ht with ht | ht
    · rw [ht, if_neg (by decide)]
    · rw [ht, if_neg (by decide)]
  · rfl

theorem sysRead_directory (hi : i.val ≠ 0) (ht : (k.fd k.current i).type = .vfs)
    (hd : nodes (k.fd k.current i).node = none) : io.sysRead nodes k i rsi rdx = .badf := by
  unfold Io.sysRead
  rw [if_neg (by omega), if_neg hi]
  split
  · dsimp only
    rw [ht, hd, if_neg (by decide)]
  · rfl

theorem sysWrite_pipe (hi : i.val = 1 ∨ 3 ≤ i.val) (ht : (k.fd k.current i).type = .pipeWrite) :
    io.sysWrite k i rsi rdx = io.pipeWrite (k.fd k.current i).pipe rsi rdx := by
  unfold Io.sysWrite
  rcases hi with hi | hi
  · obtain rfl : i = 1 := Fin.ext hi
    rw [if_pos ⟨rfl, ht⟩]
  · rw [if_neg (by omega), if_neg (by omega), dif_pos ⟨hi, i.isLt⟩]
    rw [if_pos ht]

theorem sysWrite_screen (hi : i.val = 1) (ht : (k.fd k.current i).type ≠ .pipeWrite) :
    io.sysWrite k i rsi rdx = Io.printN rsi rdx := by
  obtain rfl : i = 1 := Fin.ext hi
  unfold Io.sysWrite
  rw [if_neg fun h => ht h.2, if_pos hi]

theorem sysWrite_low (hi : i.val = 0 ∨ i.val = 2) : io.sysWrite k i rsi rdx = .badf := by
  unfold Io.sysWrite
  rw [if_neg (by omega), if_neg (by omega), dif_neg (by omega)]

theorem sysWrite_other (hi : i.val ≠ 1) (ht : (k.fd k.current i).type ≠ .pipeWrite) :
    io.sysWrite k i rsi rdx = .badf := by
  unfold Io.sysWrite
  rw [if_neg (by omega), if_neg hi]
  split
  · dsimp only
    rw [if_neg ht]
  · rfl

end

/-! ## The same descriptor in two slots -/

/-- Nothing arrives, and the other ends of the pipes are gone. -/
def Io.quiet : Io := ⟨[], fun _ => [], fun _ => true, fun _ => 0, fun _ => true⟩

theorem pipeRead_quiet (p : Option Nat) : (Io.quiet.pipeRead p 0 1).handler = .done 0 := rfl

theorem pipeWrite_quiet (p : Option Nat) : (Io.quiet.pipeWrite p 0 1).handler = .done (-1) := rfl

theorem keyboardRead_quiet : (Io.quiet.keyboardRead 0 1).handler = .stuck := rfl

theorem printN_one : ∃ next, (Io.printN 0 1).handler = .peek 0 next := ⟨_, rfl⟩

/-- A read of a file returns something, and no error but `EFAULT`. -/
theorem fileRead_one (slot : Nat) (fd : FileDescriptor) (data : List Byte) :
    (Io.fileRead slot fd data 0 1).handler ≠ .stuck ∧
      (Io.fileRead slot fd data 0 1).handler ≠ .done (-9) := by
  unfold Io.fileRead User.copyToUser
  generalize User.fileBytes data fd.offset 1 = n
  cases User.fileRead data fd.offset 1 with
  | nil =>
    refine ⟨nofun, fun h => ?_⟩
    have hn := Lib.Prog.done.inj h
    omega
  | cons v vs => exact ⟨nofun, nofun⟩

section

variable {nodes : Nodes} {k : Kernel} {o n : Fin maxFds} {fd : FileDescriptor}

/-- A slot that is taken for the same under both numbers serves the same calls. -/
theorem aliases_of_interchangeable (ho : k.fd k.current o = fd) (hn : k.fd k.current n = fd)
    (h : Interchangeable nodes fd o n) : Aliases nodes k o n := by
  intro io rsi rdx
  unfold Interchangeable at h
  split at h
  · exact h.elim
  next ht =>
    rw [sysRead_pipe h.2 (hn ▸ ht), sysRead_pipe h.1 (ho ▸ ht),
      sysWrite_other (by omega) (by rw [hn, ht]; decide),
      sysWrite_other (by omega) (by rw [ho, ht]; decide), ho, hn]
    exact ⟨⟨rfl, rfl⟩, ⟨rfl, rfl⟩⟩
  next ht =>
    rw [sysWrite_pipe h.2 (hn ▸ ht), sysWrite_pipe h.1 (ho ▸ ht),
      sysRead_other (by omega) (.inl (hn ▸ ht)), sysRead_other (by omega) (.inl (ho ▸ ht)),
      ho, hn]
    exact ⟨⟨rfl, rfl⟩, ⟨rfl, rfl⟩⟩
  next ht =>
    split at h
    next data hd =>
      rw [sysRead_file h.2 (hn ▸ ht) (hn ▸ hd), sysRead_file h.1 (ho ▸ ht) (ho ▸ hd),
        sysWrite_other (by omega) (by rw [hn, ht]; decide),
        sysWrite_other (by omega) (by rw [ho, ht]; decide), ho, hn]
      exact ⟨⟨rfl, rfl⟩, ⟨rfl, rfl⟩⟩
    next hd =>
      rw [sysRead_directory (by omega) (hn ▸ ht) (hn ▸ hd),
        sysRead_directory (by omega) (ho ▸ ht) (ho ▸ hd),
        sysWrite_other (by omega) (by rw [hn, ht]; decide),
        sysWrite_other (by omega) (by rw [ho, ht]; decide)]
      exact ⟨⟨rfl, rfl⟩, ⟨rfl, rfl⟩⟩

/-- What the two reads and the two writes return or do first, if nothing arrives. -/
theorem Aliases.quiet (h : Aliases nodes k o n) :
    (Io.quiet.sysRead nodes k n 0 1).handler = (Io.quiet.sysRead nodes k o 0 1).handler ∧
      (Io.quiet.sysWrite k n 0 1).handler = (Io.quiet.sysWrite k o 0 1).handler :=
  ⟨(h Io.quiet 0 1).1.1, (h Io.quiet 0 1).2.1⟩

/-- Unless it holds a write end, slot 1 is the screen and no other slot is. -/
theorem Aliases.one (h : Aliases nodes k o n) (ho : (k.fd k.current o).type ≠ .pipeWrite)
    (hn : (k.fd k.current n).type ≠ .pipeWrite) : o.val = 1 ↔ n.val = 1 := by
  obtain ⟨-, hw⟩ := h.quiet
  obtain ⟨next, hscreen⟩ := printN_one
  constructor
  · intro hone
    by_contra hne
    rw [sysWrite_screen hone ho, sysWrite_other hne hn, hscreen] at hw
    cases hw
  · intro hone
    by_contra hne
    rw [sysWrite_screen hone hn, sysWrite_other hne ho, hscreen] at hw
    cases hw

/-- A slot that is not taken for the keyboard gives an answer. -/
theorem sysRead_not_stuck {i : Fin maxFds} (hi : i.val ≠ 0) :
    (Io.quiet.sysRead nodes k i 0 1).handler ≠ .stuck := by
  rcases Nat.lt_or_ge i.val 3 with hlt | hge
  · rw [sysRead_low (by omega)]
    nofun
  · cases ht : (k.fd k.current i).type with
    | none =>
      rw [sysRead_other hi (.inr ht)]
      nofun
    | vfs =>
      cases hd : nodes (k.fd k.current i).node with
      | none =>
        rw [sysRead_directory hi ht hd]
        nofun
      | some data =>
        rw [sysRead_file hge ht hd]
        exact (fileRead_one _ _ _).1
    | pipeRead =>
      rw [sysRead_pipe (.inr hge) ht, pipeRead_quiet]
      nofun
    | pipeWrite =>
      rw [sysRead_other hi (.inl ht)]
      nofun

/-- Unless it holds a read end, slot 0 is the keyboard and no other slot is. -/
theorem Aliases.zero (h : Aliases nodes k o n) (ho : (k.fd k.current o).type ≠ .pipeRead)
    (hn : (k.fd k.current n).type ≠ .pipeRead) : o.val = 0 ↔ n.val = 0 := by
  obtain ⟨hr, -⟩ := h.quiet
  constructor
  · intro hzero
    by_contra hne
    rw [sysRead_keyboard hzero ho, keyboardRead_quiet] at hr
    exact sysRead_not_stuck hne hr
  · intro hzero
    by_contra hne
    rw [sysRead_keyboard hzero hn, keyboardRead_quiet] at hr
    exact sysRead_not_stuck hne hr.symm

/-- Numbers that serve the same calls are interchangeable. -/
theorem Aliases.interchangeable (h : Aliases nodes k o n) (ho : k.fd k.current o = fd)
    (hn : k.fd k.current n = fd) (hopen : fd.type ≠ .none) (hne : n ≠ o) :
    Interchangeable nodes fd o n := by
  have hval : n.val ≠ o.val := fun heq => hne (Fin.ext heq)
  obtain ⟨hr, hw⟩ := h.quiet
  unfold Interchangeable
  cases ht : fd.type with
  | none => exact hopen ht
  | pipeRead =>
    have hone := h.one (by rw [ho, ht]; decide) (by rw [hn, ht]; decide)
    have hiff : (o.val = 0 ∨ 3 ≤ o.val) ↔ (n.val = 0 ∨ 3 ≤ n.val) := by
      constructor
      · intro hs
        by_contra hlow
        rw [sysRead_pipe hs (ho ▸ ht), sysRead_low (by omega), pipeRead_quiet] at hr
        cases hr
      · intro hs
        by_contra hlow
        rw [sysRead_pipe hs (hn ▸ ht), sysRead_low (by omega), pipeRead_quiet] at hr
        cases hr
    omega
  | pipeWrite =>
    have hzero := h.zero (by rw [ho, ht]; decide) (by rw [hn, ht]; decide)
    have hiff : (o.val = 1 ∨ 3 ≤ o.val) ↔ (n.val = 1 ∨ 3 ≤ n.val) := by
      constructor
      · intro hs
        by_contra hlow
        rw [sysWrite_pipe hs (ho ▸ ht), sysWrite_low (by omega), pipeWrite_quiet] at hw
        cases hw
      · intro hs
        by_contra hlow
        rw [sysWrite_pipe hs (hn ▸ ht), sysWrite_low (by omega), pipeWrite_quiet] at hw
        cases hw
    omega
  | vfs =>
    have hone := h.one (by rw [ho, ht]; decide) (by rw [hn, ht]; decide)
    have hzero := h.zero (by rw [ho, ht]; decide) (by rw [hn, ht]; decide)
    cases hd : nodes fd.node with
    | none =>
      omega
    | some data =>
      have hiff : 3 ≤ o.val ↔ 3 ≤ n.val := by
        constructor
        · intro hs
          by_contra hlow
          rw [sysRead_file hs (ho ▸ ht) (ho ▸ hd), sysRead_low (by omega)] at hr
          exact (fileRead_one _ _ _).2 hr.symm
        · intro hs
          by_contra hlow
          rw [sysRead_file hs (hn ▸ ht) (hn ▸ hd), sysRead_low (by omega)] at hr
          exact (fileRead_one _ _ _).2 hr
      omega

/-! ## The call -/

theorem wakeLoop_current (w : WaitId) (fuel : Nat) (k : Kernel) :
    (wakeLoop w fuel k).current = k.current := by
  induction fuel generalizing k with
  | zero => rfl
  | succ fuel ih =>
    have hpop := waitFrame_current (waitQueuePop_waitFrame k w)
    unfold wakeLoop
    generalize k.waitQueuePop w = r at hpop ⊢
    obtain ⟨k₁, p⟩ := r
    cases p with
    | none => exact hpop
    | some p => exact (ih _).trans ((frame_current (mlfqEnqueue_frame k₁ p)).trans hpop)

theorem dropEnd_current (k : Kernel) (d : FileDescriptor) :
    (k.dropEnd d).current = k.current := by
  rcases hr : d.ref with _ | ⟨x, r⟩
  · rw [dropEnd_of_ref_none hr]
  · rw [dropEnd_of_ref hr]
    unfold pipeCloseEnd
    dsimp only
    split
    · rw [emit_current, wakeAll, wakeLoop_current, wakeAll, wakeLoop_current, setPipe_current]
    · rw [wakeAll, wakeLoop_current, wakeAll, wakeLoop_current, setPipe_current]

theorem dupEnd_current (k : Kernel) (d : FileDescriptor) :
    (k.dupEnd d).current = k.current := by
  unfold dupEnd
  split <;> rfl

/-- `SYS_dup2` on an open slot puts its descriptor into the other slot. -/
theorem sysDup2_slots (n : Fin maxFds) (hopen : (k.fd k.current o).type ≠ .none) :
    (k.sysDup2 o n).2 = n.val ∧ (k.sysDup2 o n).1.current = k.current ∧
      (k.sysDup2 o n).1.fd k.current o = k.fd k.current o ∧
      (k.sysDup2 o n).1.fd k.current n = k.fd k.current o := by
  unfold sysDup2
  rw [dif_pos ⟨o.isLt, n.isLt⟩, if_neg hopen]
  split
  next heq =>
    obtain rfl := Fin.ext heq
    exact ⟨rfl, rfl, rfl, rfl⟩
  next hne =>
    have hslot : ((k.current, o) : Slot) ≠ (k.current, n) := fun e =>
      hne (congrArg (fun s : Slot => (s.2 : Nat)) e).symm
    have hold : (k.dropEnd (k.fd k.current n)).fd k.current o = k.fd k.current o :=
      dropEnd_slot _ (k.current, o)
    dsimp only
    rw [dropEnd_current, hold]
    refine ⟨rfl, ?_, ?_, ?_⟩
    · rw [dupEnd_current]
      exact dropEnd_current k _
    · refine (dupEnd_slot _ (k.current, o)).trans ?_
      exact (setFd_slot_ne hslot).trans hold
    · refine (dupEnd_slot _ (k.current, n)).trans ?_
      exact setFd_slot_same

/-- After a successful `SYS_dup2` the new number serves as the old one does exactly when the two
are the same or interchangeable for what the slot holds. -/
theorem dup2_aliases_iff (nodes : Nodes) (k : Kernel) (o n : Fin maxFds)
    (hopen : (k.fd k.current o).type ≠ .none) :
    (k.sysDup2 o n).2 = n.val ∧
      (Aliases nodes (k.sysDup2 o n).1 o n ↔
        n = o ∨ Interchangeable nodes (k.fd k.current o) o n) := by
  obtain ⟨hret, hcur, ho, hn⟩ := sysDup2_slots n hopen
  rw [← hcur] at ho hn
  refine ⟨hret, fun h => ?_, ?_⟩
  · by_cases hne : n = o
    · exact .inl hne
    · refine .inr (h.interchangeable ?_ ?_ hopen hne)
      · rw [ho, hcur]
      · rw [hn, hcur]
  · rintro (rfl | h)
    · exact fun io rsi rdx => ⟨⟨rfl, rfl⟩, ⟨rfl, rfl⟩⟩
    · refine aliases_of_interchangeable ?_ ?_ h
      · rw [ho, hcur]
      · rw [hn, hcur]

end

def fileAtThree : Kernel :=
  (initScheduler .blank).setFd (initScheduler .blank).current 3 ⟨.vfs, some 0, none, 0, 0⟩

def oneByteFile : Nodes := fun _ => some [0x41#8]

theorem dup2_aliases_fileAtThree :
    (fileAtThree.sysDup2 3 5).2 = 5 ∧ Aliases oneByteFile (fileAtThree.sysDup2 3 5).1 3 5 := by
  obtain ⟨hret, hiff⟩ := dup2_aliases_iff oneByteFile fileAtThree 3 5 (by decide)
  exact ⟨hret, hiff.mpr (.inr (show 3 ≤ 3 ∧ 3 ≤ 5 by decide))⟩

/-- After `dup2(3, 0)` a read of 0 waits for the keyboard, and a read of 3 gives the byte. -/
theorem dup2_onto_zero :
    (fileAtThree.sysDup2 3 0).2 = 0 ∧
      (Io.quiet.sysRead oneByteFile (fileAtThree.sysDup2 3 0).1 0 0 1).handler = .stuck ∧
      (Io.quiet.sysRead oneByteFile (fileAtThree.sysDup2 3 0).1 3 0 1).handler =
        .put 0 0x41#8 (.done 1) (.done (-14)) ∧
      ¬Aliases oneByteFile (fileAtThree.sysDup2 3 0).1 3 0 := by
  obtain ⟨hret, hcur, ho, hn⟩ : (fileAtThree.sysDup2 3 0).2 = 0 ∧
      (fileAtThree.sysDup2 3 0).1.current = fileAtThree.current ∧
      (fileAtThree.sysDup2 3 0).1.fd fileAtThree.current 3 = fileAtThree.fd fileAtThree.current 3 ∧
      (fileAtThree.sysDup2 3 0).1.fd fileAtThree.current 0 =
        fileAtThree.fd fileAtThree.current 3 := @sysDup2_slots fileAtThree 3 0 (by decide)
  have hzero : (Io.quiet.sysRead oneByteFile (fileAtThree.sysDup2 3 0).1 0 0 1).handler =
      .stuck := by
    rw [← keyboardRead_quiet]
    refine congrArg Doing.handler (sysRead_keyboard (i := 0) rfl ?_)
    rw [hcur, hn]
    decide
  have hthree : (Io.quiet.sysRead oneByteFile (fileAtThree.sysDup2 3 0).1 3 0 1).handler =
      .put 0 0x41#8 (.done 1) (.done (-14)) := by
    refine (congrArg Doing.handler (@sysRead_file _ _ _ 3 _ _ [0x41#8] ?_ ?_ ?_)).trans ?_
    · decide
    · rw [hcur, ho]
      rfl
    · rfl
    · rw [hcur, ho]
      rfl
  refine ⟨hret, hzero, hthree, fun h => ?_⟩
  have hsame : (Io.quiet.sysRead oneByteFile (fileAtThree.sysDup2 3 0).1 0 0 1).handler =
      (Io.quiet.sysRead oneByteFile (fileAtThree.sysDup2 3 0).1 3 0 1).handler := h.quiet.1
  rw [hzero, hthree] at hsame
  cases hsame

end Kernel

end Aeryk
