import Aeryk.User.Syscalls

/-!
# Pointers of the caller

Two questions about `syscall_handler_c`, for every number, all registers and every address space:
can a pointer bring the kernel down, and can the kernel be made to write where the caller could
not?

The kernel goes down if and only if a byte that a call reads or writes directly is not there
(`PointersOk`).  How far a call goes is said without its handler: a number of bytes, a string up to
its `NUL`, or a path up to where its bytes settle the lookup (`settled`).  For the second question,
`copy_to_user` is no protection: it recovers from faults, but at ring 0 a store to the kernel half
does not fault.
-/

namespace Aeryk.User

open Lib List
open Fs (Vfs Linked Segment slash Child encodeAll)

/-! ## What a call goes to -/

namespace Space

variable (s : Space)

def CanRead (p n : Nat) : Prop := ∀ j < n, s.Readable (offset p j)

def CanStore (p n : Nat) : Prop := ∀ j < n, s.Storable (offset p j)

/-- The bytes from `p` on can be read, and are `text`. -/
def Reads : Nat → List Byte → Prop
  | _, [] => True
  | p, b :: text => s.Readable p ∧ s.byte p = b ∧ Reads (offset p 1) text

/-- The string at `p` can be read from its `n`-th byte on up to its `NUL`, or `max` bytes of it. -/
def StringFrom (p n max : Nat) : Prop :=
  ∀ j < max, (∀ l < j, s.byte (offset p (n + l)) ≠ 0#8) → s.Readable (offset p (n + j))

/-- The eight bytes at `p`, as a pointer. -/
def word (p : Nat) : Nat :=
  (range 8).foldl (fun acc i => acc + (s.byte (offset p i)).toNat * 256 ^ i) 0

/-- The pointers at `argv` can be read from the `i`-th on up to the null, or `max` of them, and so
can their strings. -/
def ArgsFrom (argv i max : Nat) : Prop :=
  ∀ j < max, (∀ l < j, s.word (offset argv (8 * (i + l))) ≠ 0) →
    s.CanRead (offset argv (8 * (i + j))) 8 ∧
      (s.word (offset argv (8 * (i + j))) ≠ 0 →
        s.StringFrom (s.word (offset argv (8 * (i + j)))) 0 127)

end Space

/-- Neither the `NUL` nor a slash. -/
def inSegment (b : Byte) : Bool := !(b = 0#8 ∨ b = slash)

/-- The answer of a lookup, if the first bytes of a path settle it: they go up to a `NUL`, or past a
segment that is the name of no child. -/
def settled (inp : Inputs) (node : Nat) (text : List Byte) : Option (Option Nat) :=
  match _h : text.dropWhile (· = slash) with
  | [] => none
  | c :: rest =>
    if c = 0#8 then some (some node)
    else
      match _hd : (c :: rest).dropWhile inSegment with
      | [] => none
      | d :: more =>
        let seg := (c :: rest).takeWhile inSegment
        match (inp.kids node).find? fun k => inp.vfs.nameOf k = seg with
        | none => some none
        | some child => if d = 0#8 then some (some child) else settled inp child more
termination_by text.length
decreasing_by
  have hle := length_dropWhile_le (· = slash) text
  have hle' := length_dropWhile_le inSegment (c :: rest)
  rw [_h] at hle
  rw [_hd] at hle'
  simp only [length_cons] at hle hle'
  omega

/-- The lookup of the path at `p` gives `o`. -/
def LeadsTo (s : Space) (inp : Inputs) (p : Nat) (o : Option Nat) : Prop :=
  p = 0 ∧ o = some inp.vfs.root ∨
    p ≠ 0 ∧ ∃ text, s.Reads p text ∧ settled inp inp.vfs.root text = some o

/-- How many bytes `SYS_read` hands out, and whether it stores them directly. -/
def readCount (inp : Inputs) (r : Regs) : Nat × Bool :=
  let count := (toInt r.rdx).toNat
  if r.rdi = 0 then
    match inp.fd 0 with
    | .pipeRead arrives _ => (min count arrives.length, true)
    | _ => ((line (inp.keyboard.take count)).length, true)
  else if 3 ≤ r.rdi ∧ r.rdi < 32 then
    match inp.fd r.rdi with
    | .pipeRead arrives _ => (min count arrives.length, true)
    | .vfs data off => (fileBytes data off r.rdx, false)
    | _ => (0, false)
  else (0, false)

/-- How many bytes `SYS_write` takes. -/
def writeCount (inp : Inputs) (r : Regs) : Nat :=
  if r.rdi = 1 then
    match inp.fd 1 with
    | .pipeWrite takes _ => min takes (toInt r.rdx).toNat
    | _ => r.rdx
  else if 3 ≤ r.rdi ∧ r.rdi < 32 then
    match inp.fd r.rdi with
    | .pipeWrite takes _ => min takes (toInt r.rdx).toNat
    | _ => 0
  else 0

def mouseCount (inp : Inputs) (r : Regs) : Nat :=
  (inp.mouse.take (toInt r.rsi).toNat).flatten.length

/-- What a call reads and writes directly can be read and written. -/
def PointersOk (s : Space) (inp : Inputs) (r : Regs) : Prop :=
  match Sys.ofRax r.rax with
  | .read => (readCount inp r).2 = true → s.CanStore r.rsi (readCount inp r).1
  | .write => s.CanRead r.rsi (writeCount inp r)
  | .openFile | .readdir => ∃ o, LeadsTo s inp r.rdi o
  | .execve => r.rdi ≠ 0 → s.StringFrom r.rdi 0 127 ∧
    (s.byte (offset r.rdi 0) ≠ 0#8 → r.rsi ≠ 0 → s.ArgsFrom r.rsi 0 8)
  | .mouseRead => s.CanStore r.rdi (mouseCount inp r)
  | .pipe | .wait | .fbmap | .other => True

/-- The size of a listing of `SYS_readdir`. -/
def listingSize (inp : Inputs) (rdx : Nat) : Option Nat → Nat
  | none => 0
  | some dir =>
    if (inp.vfs.nodes dir).type = .directory then
      ((fitting Child.size (min (rdx % 2 ^ 32) 512) (inp.vfs.entries inp.kids dir)).map
        Child.size).sum
    else 0

/-- The pointer a call writes its result to. -/
def outputPtr (r : Regs) : Nat :=
  match Sys.ofRax r.rax with
  | .read | .wait | .readdir => r.rsi
  | _ => r.rdi

/-- The size of the result. -/
def OutputSize (s : Space) (inp : Inputs) (r : Regs) (n : Nat) : Prop :=
  match Sys.ofRax r.rax with
  | .read => n = (readCount inp r).1
  | .pipe => n = (inp.pipe.getD []).length
  | .wait => n = if inp.wait > 0 ∧ r.rsi ≠ 0 then inp.status.length else 0
  | .readdir => ∃ o, LeadsTo s inp r.rdi o ∧ n = listingSize inp r.rdx o
  | .mouseRead => n = mouseCount inp r
  | .fbmap => n = if inp.fbFree then inp.fbInfo.length else 0
  | .write | .openFile | .execve | .other => n = 0

namespace Space

variable {s : Space} {a : Nat}

/-! ## Accesses at ring 0 -/

theorem fault_read_none : s.fault false a = none ↔ s.Readable a := by
  unfold fault Readable
  by_cases hc : Canonical a <;> cases hp : (s.pageAt a).present <;> simp [hc]

theorem fault_vector {write : Bool} {n : Nat} (h : s.fault write a = some n) : n = 13 ∨ n = 14 := by
  unfold fault at h
  split at h
  · exact .inl (Option.some.inj h).symm
  · split at h
    · exact .inr (Option.some.inj h).symm
    · split at h
      · exact .inr (Option.some.inj h).symm
      · cases h

/-- A load at ring 0 goes through, or it ends in the panic branch. -/
theorem touch_read (s : Space) (a : Nat) :
    s.touch false false a = .ok ∧ s.Readable a ∨
      s.touch false false a = .crashed ∧ ¬s.Readable a := by
  rw [← fault_read_none]
  unfold touch
  cases hf : s.fault false a with
  | none => exact .inl ⟨rfl, rfl⟩
  | some n =>
    have hisr : isrHandler n false (s.cowFault a) false false = .panic := by
      rcases fault_vector hf with rfl | rfl <;> simp [isrHandler]
    exact .inr ⟨by simp only [hisr], nofun⟩

/-- A store goes through as it is, or after the copy of a page, or it faults. -/
theorem fault_write (s : Space) (a : Nat) :
    (s.fault true a = none ∧ s.Storable a) ∨
      (s.fault true a = some 14 ∧ s.cowFault a = true ∧ s.Storable a) ∨
      (∃ n, s.fault true a = some n ∧ (n = 13 ∨ n = 14) ∧ (n = 14 → s.cowFault a = false) ∧
        ¬s.Storable a) := by
  unfold fault Storable
  by_cases hc : Canonical a
  · cases hp : (s.pageAt a).present with
    | false =>
      have hcow : s.cowFault a = false := by simp [cowFault, hp]
      refine .inr (.inr ⟨14, by simp [hc], .inr rfl, fun _ => hcow, ?_⟩)
      simp
    | true =>
      cases hw : (s.pageAt a).writable with
      | true => exact .inl (by simp [hc])
      | false =>
        cases hcow : s.cowFault a with
        | true => exact .inr (.inl (by simp [hc]))
        | false => exact .inr (.inr ⟨14, by simp [hc]⟩)
  · exact .inr (.inr ⟨13, by simp [hc]⟩)

/-- A store goes through, or it ends as the handler has it: in the panic branch, or with the copy of
`copy_to_user` abandoned. -/
theorem touch_store (copying : Bool) (s : Space) (a : Nat) :
    s.touch copying true a = .ok ∧ s.Storable a ∨
      s.touch copying true a = (if copying then .abandoned else .crashed) ∧ ¬s.Storable a := by
  unfold touch
  rcases fault_write s a with ⟨hf, hs⟩ | ⟨hf, hcow, hs⟩ | ⟨n, hf, hn, hcow, hs⟩
  · exact .inl ⟨by rw [hf], hs⟩
  · exact .inl ⟨by simp [hf, isrHandler, hcow], hs⟩
  · refine .inr ⟨?_, hs⟩
    rcases hn with rfl | rfl
    · cases copying <;> simp [hf, isrHandler]
    · cases copying <;> simp [hf, isrHandler, hcow]

theorem touch_write (s : Space) (a : Nat) :
    s.touch false true a = .ok ∧ s.Storable a ∨
      s.touch false true a = .crashed ∧ ¬s.Storable a :=
  touch_store false s a

theorem touch_copy (s : Space) (a : Nat) :
    s.touch true true a = .ok ∧ s.Storable a ∨
      s.touch true true a = .abandoned ∧ ¬s.Storable a :=
  touch_store true s a

end Space

/-! ## Loads -/

section Loads

variable {ρ : Type} {s : Space} {a p f : Nat} {text : List Byte}

theorem goes_peek {next : Byte → Prog ρ} :
    Prog.Goes s.machine (.peek a next) (s.Readable a) (next (s.byte a)) :=
  .load (Space.touch_read s a)

/-- The address behind a text. -/
def behind : Nat → List Byte → Nat
  | p, [] => p
  | p, _ :: text => behind (offset p 1) text

/-- The loop over slashes stops at the first other byte. -/
theorem exec_skipSlashes (k : Nat → Prog ρ) (h : s.Reads p text) (hf : text.length < f) :
    (text.dropWhile (· = slash) = [] → ¬s.Readable (behind p text) →
      Prog.exec s.machine (skipSlashes f p k) = (.crashed, [])) ∧
    ∀ c rest, text.dropWhile (· = slash) = c :: rest →
      ∃ q, s.Reads q (c :: rest) ∧ behind q (c :: rest) = behind p text ∧
        Prog.exec s.machine (skipSlashes f p k) = Prog.exec s.machine (k q) := by
  induction text generalizing p f with
  | nil =>
    obtain ⟨f, rfl⟩ := Nat.exists_eq_succ_of_ne_zero (Nat.ne_of_gt hf)
    exact ⟨fun _ hn => goes_peek.2 hn, fun c rest heq => (by cases heq)⟩
  | cons b text ih =>
    obtain ⟨f, rfl⟩ := Nat.exists_eq_succ_of_ne_zero (Nat.ne_of_gt (Nat.zero_lt_of_lt hf))
    obtain ⟨hr, hb, hrest⟩ := h
    rw [skipSlashes, goes_peek.1 hr, hb]
    by_cases hs : b = slash
    · rw [if_pos hs, dropWhile_cons_of_pos (by simpa using hs)]
      exact ih hrest (Nat.lt_of_succ_lt_succ hf)
    · rw [if_neg hs, dropWhile_cons_of_neg (by simpa using hs)]
      refine ⟨fun heq => (by cases heq), fun c rest heq => ?_⟩
      cases heq
      exact ⟨p, ⟨hr, hb, hrest⟩, rfl, rfl⟩

/-- The loop over a segment stops at the `NUL` or the slash behind it. -/
theorem exec_scanSegment (k : List Byte → Nat → Byte → Prog ρ) (seg : List Byte)
    (h : s.Reads p text) (hf : text.length < f) :
    (text.dropWhile inSegment = [] → ¬s.Readable (behind p text) →
      Prog.exec s.machine (scanSegment f p seg k) = (.crashed, [])) ∧
    ∀ d more, text.dropWhile inSegment = d :: more →
      ∃ q, s.Reads q (d :: more) ∧ behind q (d :: more) = behind p text ∧
        Prog.exec s.machine (scanSegment f p seg k) =
          Prog.exec s.machine (k (seg ++ text.takeWhile inSegment) q d) := by
  induction text generalizing p f seg with
  | nil =>
    obtain ⟨f, rfl⟩ := Nat.exists_eq_succ_of_ne_zero (Nat.ne_of_gt hf)
    exact ⟨fun _ hn => goes_peek.2 hn, fun c rest heq => (by cases heq)⟩
  | cons b text ih =>
    obtain ⟨f, rfl⟩ := Nat.exists_eq_succ_of_ne_zero (Nat.ne_of_gt (Nat.zero_lt_of_lt hf))
    obtain ⟨hr, hb, hrest⟩ := h
    rw [scanSegment, goes_peek.1 hr, hb]
    by_cases hs : b = 0#8 ∨ b = slash
    · have hstop : ¬inSegment b = true := by simp [inSegment, hs]
      rw [if_pos hs, dropWhile_cons_of_neg hstop, takeWhile_cons_of_neg hstop, append_nil]
      refine ⟨fun heq => (by cases heq), fun c rest heq => ?_⟩
      cases heq
      exact ⟨p, ⟨hr, hb, hrest⟩, rfl, rfl⟩
    · have hgo : inSegment b = true := by simp [inSegment, hs]
      rw [if_neg hs, dropWhile_cons_of_pos hgo, takeWhile_cons_of_pos hgo]
      have hnext := ih (seg ++ [b]) hrest (Nat.lt_of_succ_lt_succ hf)
      rwa [append_assoc, singleton_append] at hnext

theorem segment_takeWhile {c : Byte} {rest : List Byte} (hc : inSegment c = true) :
    Segment ((c :: rest).takeWhile inSegment) := by
  have hall : ∀ b ∈ (c :: rest).takeWhile inSegment, inSegment b = true := fun b hb =>
    mem_takeWhile_imp hb
  refine ⟨?_, fun hs => ?_, fun hz => ?_⟩
  · rw [takeWhile_cons_of_pos hc]
    exact cons_ne_nil c _
  · exact absurd (hall _ hs) (by decide)
  · exact absurd (hall _ hz) (by decide)

section Settled

variable {inp : Inputs} {node : Nat} {c d : Byte} {rest more : List Byte}

theorem settled_slashes (h : text.dropWhile (· = slash) = []) : settled inp node text = none := by
  rw [settled]
  split <;> simp_all

theorem settled_nul (h : text.dropWhile (· = slash) = 0#8 :: rest) :
    settled inp node text = some (some node) := by
  rw [settled]
  split <;> simp_all

theorem settled_open (h : text.dropWhile (· = slash) = c :: rest) (hc : c ≠ 0#8)
    (hs : (c :: rest).dropWhile inSegment = []) : settled inp node text = none := by
  rw [settled]
  split
  · rfl
  next heq =>
    obtain ⟨rfl, rfl⟩ := cons.inj (h.symm.trans heq)
    rw [if_neg hc]
    split
    · rfl
    next heq => exact absurd (hs.symm.trans heq) (cons_ne_nil _ _).symm

theorem settled_segment (h : text.dropWhile (· = slash) = c :: rest) (hc : c ≠ 0#8)
    (hs : (c :: rest).dropWhile inSegment = d :: more) :
    settled inp node text =
      match (inp.kids node).find? fun k => inp.vfs.nameOf k = (c :: rest).takeWhile inSegment with
      | none => some none
      | some child => if d = 0#8 then some (some child) else settled inp child more := by
  rw [settled]
  split
  next heq => exact absurd (h.symm.trans heq) (cons_ne_nil _ _)
  next heq =>
    obtain ⟨rfl, rfl⟩ := cons.inj (h.symm.trans heq)
    rw [if_neg hc]
    split
    next heq => exact absurd (hs.symm.trans heq) (cons_ne_nil _ _)
    next heq =>
      obtain ⟨rfl, rfl⟩ := cons.inj (hs.symm.trans heq)
      rfl

/-- A string settles its lookup, with the answer `vfs_find_node` has for the path. -/
theorem settled_string {path : List Byte} (hnode : node < inp.vfs.fresh) (hnul : 0#8 ∉ path) :
    settled inp node (path ++ 0#8 :: rest) = inp.vfs.vfsFindNode node path := by
  generalize hlen : path.length = len
  induction len using Nat.strong_induction_on generalizing path node with
  | _ len ih =>
    have hdrop : (path ++ 0#8 :: rest).dropWhile (· = slash) =
        path.dropWhile (· = slash) ++ 0#8 :: rest := by
      rw [dropWhile_append]
      split
      next hnil => rw [isEmpty_iff.mp hnil, nil_append, dropWhile_cons_of_neg (by decide)]
      · rfl
    rw [← Fs.vfsFindNode_dropWhile]
    rcases Fs.segment_cases hnul with hd | ⟨seg, t, hseg, ht, hd, hlt⟩
    · rw [hd] at hdrop ⊢
      rw [settled_nul hdrop, Fs.vfsFindNode_slashes rfl]
    · have hscan : ∀ d more, inSegment d = false → (seg ++ d :: more).takeWhile inSegment = seg ∧
          (seg ++ d :: more).dropWhile inSegment = d :: more := by
        intro d more hstop
        have hall : ∀ b ∈ seg, inSegment b = true := fun b hb => by
          have hz : b ≠ 0#8 := fun h => hseg.nul (h ▸ hb)
          have hs : b ≠ slash := fun h => hseg.slash (h ▸ hb)
          simp [inSegment, hz, hs]
        rw [takeWhile_append_of_pos hall, dropWhile_append_of_pos hall]
        simp [hstop]
      obtain ⟨b, seg, rfl⟩ := exists_cons_of_ne_nil hseg.ne_nil
      have hb : b ≠ 0#8 := fun h => hseg.nul (h ▸ mem_cons_self)
      rw [hd, append_assoc, cons_append] at hdrop
      simp only [cons_append] at hscan
      rw [hd, Fs.vfsFindNode_segment hseg ht, inp.linked.findChild hnode hseg]
      rcases ht with rfl | ⟨t, rfl⟩
      · obtain ⟨htake, hrest⟩ := hscan 0#8 rest (by decide)
        rw [nil_append] at hdrop
        rw [settled_segment hdrop hb hrest, htake]
        cases (inp.kids node).find? fun k => decide (inp.vfs.nameOf k = b :: seg) with
        | none => rfl
        | some child => exact (Fs.vfsFindNode_slashes rfl).symm
      · obtain ⟨htake, hrest⟩ := hscan slash (t ++ 0#8 :: rest) (by decide)
        rw [cons_append] at hdrop
        rw [settled_segment hdrop hb hrest, htake]
        cases hfind : (inp.kids node).find? fun k => decide (inp.vfs.nameOf k = b :: seg) with
        | none => rfl
        | some child =>
          have hlt' := (inp.linked.bound node child (mem_of_find?_eq_some hfind)).2
          refine ih t.length (by rw [← hlen]; exact hlt) hlt' (fun hmem => hnul ?_) rfl
          refine (dropWhile_suffix (· = slash)).subset (hd ▸ ?_)
          exact mem_append_right _ (mem_cons_of_mem slash hmem)

end Settled

/-- The lookup of a text goes as far as its bytes settle it, or to the first that cannot be
read. -/
def Follows (s : Space) (inp : Inputs) (k : Option Nat → Prog ρ) (p : Prog ρ) (node a : Nat)
    (text : List Byte) : Prop :=
  (∀ o, settled inp node text = some o → Prog.exec s.machine p = Prog.exec s.machine (k o)) ∧
    (settled inp node text = none → ¬s.Readable (behind a text) →
      Prog.exec s.machine p = (.crashed, []))

variable {inp : Inputs} {k : Option Nat → Prog ρ} {node : Nat}

/-- A segment and what follows it, if the calls for the children do. -/
theorem follows_enterChild {rec : Nat → Nat → Prog ρ} {c d : Byte} {rest more : List Byte}
    (hrec : ∀ child < inp.vfs.fresh, ∀ a t, s.Reads a t → t.length < (c :: rest).length →
      Follows s inp k (rec child a) child a t)
    (hnode : node < inp.vfs.fresh) (hdrop : text.dropWhile (· = slash) = c :: rest)
    (hc : c ≠ 0#8) (hscan : (c :: rest).dropWhile inSegment = d :: more)
    (hread : s.Reads a (d :: more)) (hbehind : behind a (d :: more) = behind p text) :
    Follows s inp k (enterChild inp.vfs node k rec ((c :: rest).takeWhile inSegment) a d) node p
      text := by
  have hhead := head_dropWhile_not (· = slash) (l := text) (by simp [hdrop])
  have hcs : c ≠ slash := by simpa [hdrop] using hhead
  have hcseg : inSegment c = true := by simp [inSegment, hc, hcs]
  have hchild := inp.linked.findChild (r := []) hnode (@segment_takeWhile c rest hcseg)
  have hlen : (d :: more).length < (c :: rest).length := by
    rw [dropWhile_cons_of_pos hcseg] at hscan
    have hle := length_dropWhile_le inSegment rest
    rw [hscan] at hle
    exact Nat.lt_succ_of_le hle
  rw [append_nil] at hchild
  unfold Follows enterChild
  rw [hchild, settled_segment hdrop hc hscan, ← hbehind]
  cases hfind : (inp.kids node).find? fun k =>
    decide (inp.vfs.nameOf k = (c :: rest).takeWhile inSegment) with
  | none => exact ⟨fun o ho => by rw [← Option.some.inj ho], fun hn => by cases hn⟩
  | some child =>
    have hlt := (inp.linked.bound node child (mem_of_find?_eq_some hfind)).2
    dsimp only
    by_cases hd : d = 0#8
    · have hnul : (d :: more).dropWhile (· = slash) = 0#8 :: more := by
        rw [hd]
        exact dropWhile_cons_of_neg (by decide)
      have hends := hrec child hlt a (d :: more) hread hlen
      unfold Follows at hends
      rw [settled_nul hnul] at hends
      rw [if_pos hd, if_neg (by rw [hd]; decide)]
      exact hends
    · have hslash : d = slash := by
        have hstop := head_dropWhile_not inSegment (l := c :: rest) (by simp [hscan])
        simpa [hscan, inSegment, hd] using hstop
      rw [if_neg hd, if_pos hslash]
      exact hrec child hlt (offset a 1) more hread.2.2 (Nat.lt_of_succ_lt hlen)

theorem follows_findFrom (hnode : node < inp.vfs.fresh) (h : s.Reads p text)
    (hf : text.length + 1 < f) :
    Follows s inp k (findFrom inp.vfs k f node p) node p text := by
  induction f generalizing node p text with
  | zero => exact absurd hf (Nat.not_lt_zero _)
  | succ f ih =>
    have hlen : text.length < f := Nat.lt_of_succ_lt_succ hf
    unfold Follows
    rw [findFrom]
    cases text with
    | nil =>
      refine ⟨fun o ho => ?_, fun _ hn => goes_peek.2 hn⟩
      rw [settled_slashes rfl] at ho
      cases ho
    | cons b text =>
      rw [goes_peek.1 h.1, h.2.1]
      obtain ⟨hall, hother⟩ := exec_skipSlashes
        (findSegment inp.vfs f node k (findFrom inp.vfs k f)) h hlen
      by_cases hb0 : b = 0#8
      · have hdrop : (b :: text).dropWhile (· = slash) = 0#8 :: text := by
          rw [hb0]
          exact dropWhile_cons_of_neg (by decide)
        rw [if_pos hb0, settled_nul hdrop]
        exact ⟨fun o ho => by rw [Option.some.inj ho], fun hn => by cases hn⟩
      · rw [if_neg hb0]
        cases hdrop : (b :: text).dropWhile (· = slash) with
        | nil =>
          rw [settled_slashes hdrop]
          exact ⟨fun o ho => (by cases ho), fun _ => hall hdrop⟩
        | cons c rest =>
          obtain ⟨q, hq, hbehind, hexec⟩ := hother c rest hdrop
          have hle := length_dropWhile_le (· = slash) (b :: text)
          rw [hdrop] at hle
          rw [hexec, findSegment, goes_peek.1 hq.1, hq.2.1]
          by_cases hc0 : c = 0#8
          · subst hc0
            rw [if_pos rfl, settled_nul hdrop]
            exact ⟨fun o ho => by rw [Option.some.inj ho], fun hn => by cases hn⟩
          · rw [if_neg hc0]
            obtain ⟨hall', hother'⟩ := exec_scanSegment
              (enterChild inp.vfs node k (findFrom inp.vfs k f)) [] hq (Nat.lt_of_le_of_lt hle hlen)
            cases hscan : (c :: rest).dropWhile inSegment with
            | nil =>
              rw [settled_open hdrop hc0 hscan]
              refine ⟨fun o ho => (by cases ho), fun _ hn => hall' hscan ?_⟩
              rwa [hbehind]
            | cons d more =>
              obtain ⟨a, ha, hbehind', hexec'⟩ := hother' d more hscan
              rw [hexec']
              exact follows_enterChild (fun child hchild a t ht hshort => ih hchild ht (by omega))
                hnode hdrop hc0 hscan ha (hbehind'.trans hbehind)

theorem Space.Reads.getElem {j : Nat} (h : s.Reads p text) (hj : j + 1 < text.length) :
    s.Readable (offset p (j + 1)) := by
  induction text generalizing p j with
  | nil => exact absurd hj (Nat.not_lt_zero _)
  | cons b text ih =>
    cases text with
    | nil => exact absurd (Nat.lt_of_succ_lt_succ hj) (Nat.not_lt_zero _)
    | cons c text =>
      cases j with
      | zero => exact h.2.2.1
      | succ j =>
        have hnext := ih h.2.2 (Nat.lt_of_succ_lt_succ hj)
        have hsum : offset (offset p 1) (j + 1) = offset p (j + 1 + 1) := by
          unfold offset
          omega
        rwa [hsum] at hnext

/-- No text goes through the hole between the halves. -/
theorem Space.Reads.length_le (h : s.Reads p text) : text.length ≤ 2 ^ 48 + 1 := by
  by_contra hn
  cases text with
  | nil => exact hn (Nat.zero_le _)
  | cons b text =>
    have hp := h.1.1
    have hhole : ∀ j < 2 ^ 48, offset p (j + 1) ≠ 2 ^ 47 := by
      intro j hj heq
      have hread := (h.getElem (j := j) (by omega)).1
      rw [heq] at hread
      exact absurd hread (by decide)
    unfold Canonical at hp
    unfold offset at hhole
    rcases hp with hp | hp
    · exact hhole (2 ^ 47 - p - 1) (by omega) (by omega)
    · exact hhole (2 ^ 64 - p + 2 ^ 47 - 1) (by omega) (by omega)

theorem Space.Reads.concat (h : s.Reads p text) (hr : s.Readable (behind p text)) :
    s.Reads p (text ++ [s.byte (behind p text)]) := by
  induction text generalizing p with
  | nil => exact ⟨hr, rfl, trivial⟩
  | cons c text ih => exact ⟨h.1, h.2.1, ih h.2.2 hr⟩

/-- The bytes from an address on can be read up to some point. -/
theorem exists_reads (s : Space) (p : Nat) :
    ∃ text, s.Reads p text ∧ ¬s.Readable (behind p text) := by
  by_contra hn
  have hlong : ∀ n, ∃ text, s.Reads p text ∧ text.length = n := by
    intro n
    induction n with
    | zero => exact ⟨[], trivial, rfl⟩
    | succ n ih =>
      obtain ⟨text, htext, rfl⟩ := ih
      have hr : s.Readable (behind p text) := by
        by_contra hr
        exact hn ⟨text, htext, hr⟩
      exact ⟨_, htext.concat hr, length_append⟩
  obtain ⟨text, htext, hlen⟩ := hlong (2 ^ 48 + 2)
  have hle := htext.length_le
  omega

/-- The lookup of a path of the caller: it gives what the bytes settle, and if what can be read
settles nothing, it ends in the panic branch. -/
theorem exec_vfsFindNode (s : Space) (inp : Inputs) (k : Option Nat → Prog ρ) (p : Nat) :
    (∀ o, LeadsTo s inp p o →
      Prog.exec s.machine (vfsFindNode inp.vfs p k) = Prog.exec s.machine (k o)) ∧
    ((¬∃ o, LeadsTo s inp p o) →
      Prog.exec s.machine (vfsFindNode inp.vfs p k) = (.crashed, [])) := by
  unfold vfsFindNode
  have hfollows : ∀ {text}, s.Reads p text →
      Follows s inp k (findFrom inp.vfs k (2 ^ 64) inp.vfs.root p) inp.vfs.root p text := by
    intro text h
    have hle := h.length_le
    exact follows_findFrom inp.root_lt h (by omega)
  refine ⟨?_, fun hn => ?_⟩
  · rintro o (⟨rfl, rfl⟩ | ⟨hp, text, htext, ho⟩)
    · rw [if_pos rfl]
    · rw [if_neg hp]
      exact (hfollows htext).1 o ho
  · have hp : p ≠ 0 := fun h => hn ⟨_, .inl ⟨h, rfl⟩⟩
    obtain ⟨text, htext, hend⟩ := exists_reads s p
    have hnone : settled inp inp.vfs.root text = none := by
      rw [Option.eq_none_iff_forall_ne_some]
      exact fun o ho => hn ⟨o, .inr ⟨hp, text, htext, ho⟩⟩
    rw [if_neg hp]
    exact (hfollows htext).2 hnone hend

/-- Where the path can be read, the lookup in the memory of the caller is `vfs_find_node` on the
bytes of the path. -/
theorem lookup_of_user_path (s : Space) (inp : Inputs) (k : Option Nat → Prog ρ) {p : Nat}
    {path : List Byte} (hp : p ≠ 0) (hnul : 0#8 ∉ path) (hread : s.Reads p (path ++ [0#8])) :
    ∃ o, inp.vfs.vfsFindNode inp.vfs.root path = some o ∧
      Prog.exec s.machine (vfsFindNode inp.vfs p k) = Prog.exec s.machine (k o) := by
  have hfind := inp.linked.find inp.root_lt hnul
  refine ⟨_, hfind, (exec_vfsFindNode s inp k p).1 _ (.inr ⟨hp, _, hread, ?_⟩)⟩
  exact (settled_string inp.root_lt hnul).trans hfind

/-- The loop over a string ends at its `NUL` or its limit. -/
theorem goes_copyString {k : Nat → Handler} {fuel n : Nat} :
    ∃ len ≥ n, Prog.Goes s.machine (copyString fuel p n k) (s.StringFrom p n fuel) (k len) ∧
      (len = n ↔ fuel = 0 ∨ s.byte (offset p n) = 0#8) := by
  induction fuel generalizing n with
  | zero => exact ⟨n, le_rfl, .stays fun j hj => absurd hj (Nat.not_lt_zero j), by simp⟩
  | succ fuel ih =>
    have hsucc := @Prog.forall_while_succ n fuel (fun j => s.Readable (offset p j))
      fun j => s.byte (offset p j) ≠ 0#8
    unfold Space.StringFrom at ih ⊢
    rw [hsucc, copyString]
    by_cases hz : s.byte (offset p n) = 0#8
    · refine ⟨n, le_rfl, goes_peek.trans fun _ => ?_, by simp [hz]⟩
      rw [if_pos hz]
      exact .stays fun hn => absurd hz hn
    · obtain ⟨len, hge, hrest, -⟩ := @ih (n + 1)
      refine ⟨len, by omega, goes_peek.trans fun _ => ?_, by simp [hz]; omega⟩
      rw [if_neg hz, forall_prop_of_true hz]
      exact hrest

theorem goes_peekWord {k : Nat → Handler} :
    Prog.Goes s.machine (peekWord p k) (s.CanRead p 8) (k (s.word p)) := by
  have hgo : ∀ n i acc, Prog.Goes s.machine (peekWord.go p k n i acc)
      (∀ j < n, s.Readable (offset p (i + j)))
      (k ((range' i n).foldl (fun acc i => acc + (s.byte (offset p i)).toNat * 256 ^ i) acc)) := by
    intro n
    induction n with
    | zero => exact fun i acc => .stays fun j hj => absurd hj (Nat.not_lt_zero j)
    | succ n ih =>
      intro i acc
      rw [Prog.forall_lt_succ_shift (P := fun j => s.Readable (offset p j)), peekWord.go]
      exact goes_peek.trans fun _ => ih (i + 1) _
  have h := hgo 8 0 0
  simp only [Nat.zero_add] at h
  exact h

theorem goes_copyArgs {k : Nat → Handler} {fuel argv i : Nat} :
    ∃ argc, Prog.Goes s.machine (copyArgs fuel argv i k) (s.ArgsFrom argv i fuel) (k argc) := by
  induction fuel generalizing i with
  | zero => exact ⟨i, .stays fun j hj => absurd hj (Nat.not_lt_zero j)⟩
  | succ fuel ih =>
    have hsucc := @Prog.forall_while_succ i fuel
      (fun j => s.CanRead (offset argv (8 * j)) 8 ∧ (s.word (offset argv (8 * j)) ≠ 0 →
        s.StringFrom (s.word (offset argv (8 * j))) 0 127))
      fun j => s.word (offset argv (8 * j)) ≠ 0
    unfold Space.ArgsFrom at ih ⊢
    rw [hsucc, copyArgs, and_assoc]
    by_cases hz : s.word (offset argv (8 * i)) = 0
    · refine ⟨i, goes_peekWord.trans fun _ => ?_⟩
      rw [if_pos hz]
      exact .stays ⟨fun hn => absurd hz hn, fun hn => absurd hz hn⟩
    · obtain ⟨argc, hrest⟩ := @ih (i + 1)
      obtain ⟨-, -, hstr, -⟩ := @goes_copyString s (s.word (offset argv (8 * i)))
        (fun _ => copyArgs fuel argv (i + 1) k) 127 0
      refine ⟨argc, goes_peekWord.trans fun _ => ?_⟩
      rw [if_neg hz, forall_prop_of_true hz, forall_prop_of_true hz]
      exact hstr.trans fun _ => hrest

end Loads

/-! ## Calls -/

/-- A handler ends in the panic branch unless it is safe.  Otherwise it writes bytes at `ptr` up to
the first that cannot be stored, as many as one of the sizes. -/
structure Does (s : Space) (p : Handler) (safe : Prop) (ptr : Nat) (sizes : Nat → Prop) : Prop where
  crashes : ¬safe → Prog.Crashes s.machine p
  ends : safe → ¬Prog.Crashes s.machine p
  exists_size : safe → ∃ n, sizes n
  stores : safe → ∀ n, sizes n → ∀ x, x ∈ Prog.stored s.machine p ↔
    Prog.Reached s.Storable (offset ptr) 0 n x

section Calls

variable {s : Space} {p : Handler} {a ptr n : Nat} {safe : Prop}

theorem harmless_done (r : Int) : Prog.Harmless s.machine (.done r : Handler) := ⟨nofun, rfl⟩

theorem harmless_ite {c : Prop} [Decidable c] {q : Handler} (hp : Prog.Harmless s.machine p)
    (hq : Prog.Harmless s.machine q) : Prog.Harmless s.machine (if c then p else q) := by
  split
  · exact hp
  · exact hq

theorem harmless_stuck : Prog.Harmless s.machine (.stuck : Handler) := ⟨nofun, rfl⟩

theorem Does.of_goes {q : Handler} (h : Prog.Goes s.machine p safe q)
    (hq : Prog.Harmless s.machine q) : Does s p safe ptr (· = 0) where
  crashes hn := congrArg Prod.fst (h.2 hn)
  ends hs := (h.harmless hq hs).1
  exists_size _ := ⟨0, rfl⟩
  stores := by
    rintro hs _ rfl x
    rw [(h.harmless hq hs).2]
    exact ⟨fun hx => absurd hx not_mem_nil, fun hx => absurd hx.choose_spec.1 (Nat.not_lt_zero _)⟩

theorem Does.of_harmless (h : Prog.Harmless s.machine p) (hs : safe) :
    Does s p safe ptr (· = 0) := .of_goes (.stays hs) h

theorem does_peeks (h : Prog.Harmless s.machine p) :
    Does s (Prog.peeks (offset a) 0 n p) (s.CanRead a n) ptr (· = 0) := by
  have hgoes := @Prog.goes_peeks _ s.machine p (offset a) 0 n s.Readable (Space.touch_read s)
  simp only [Nat.zero_add] at hgoes
  exact .of_goes hgoes h

theorem does_pokes {src : List Byte} (h : Prog.Harmless s.machine p) (hlen : src.length = n) :
    Does s (Prog.pokes (offset ptr) 0 src p) (s.CanStore ptr n) ptr (· = n) := by
  subst hlen
  have hexec := @Prog.exec_pokes _ s.machine p (offset ptr) 0 src s.Storable (Space.touch_write s) h
  simp only [Nat.zero_add] at hexec
  rcases hexec with ⟨hc, hend, hmem⟩ | ⟨hc, hcrash⟩
  · refine ⟨fun hn => absurd hc hn, fun _ => hend, fun _ => ⟨_, rfl⟩, ?_⟩
    rintro - _ rfl x
    rw [hmem]
    constructor
    · rintro ⟨j, hj, rfl⟩
      refine ⟨j, hj, by rw [Nat.zero_add], fun l hl => ?_⟩
      rw [Nat.zero_add]
      exact hc l (Nat.lt_of_le_of_lt hl hj)
    · rintro ⟨j, hj, rfl, -⟩
      exact ⟨j, hj, by rw [Nat.zero_add]⟩
  · exact ⟨fun _ => hcrash, fun hs => absurd hs hc, fun hs => absurd hs hc, fun hs => absurd hs hc⟩

theorem does_copy {src : List Byte} {a b : Int} (hs : safe) (hlen : src.length = n) :
    Does s (copyToUser ptr src (.done a) (.done b)) safe ptr (· = n) := by
  subst hlen
  have hexec := @Prog.exec_puts _ s.machine _ _ (offset ptr) 0 src s.Storable (Space.touch_copy s)
    (@harmless_done s a) (@harmless_done s b)
  refine ⟨fun hn => absurd hs hn, fun _ => hexec.1, fun _ => ⟨_, rfl⟩, ?_⟩
  rintro - _ rfl
  exact hexec.2

end Calls

theorem does_sysRead (s : Space) (inp : Inputs) (r : Regs) :
    Does s (sysRead inp r) ((readCount inp r).2 = true → s.CanStore r.rsi (readCount inp r).1) r.rsi
      (· = (readCount inp r).1) := by
  have hpipe : ∀ arrives closes, Does s (pipeRead arrives closes r.rsi (toInt r.rdx))
      (true = true → s.CanStore r.rsi (min (toInt r.rdx).toNat arrives.length)) r.rsi
      (· = min (toInt r.rdx).toNat arrives.length) := by
    intro arrives closes
    rw [forall_prop_of_true rfl]
    exact does_pokes (harmless_ite harmless_stuck (harmless_done _)) (length_take ..)
  have hkeys : Does s (keyboardRead inp.keyboard r.rsi (toInt r.rdx))
      (true = true → s.CanStore r.rsi (line (inp.keyboard.take (toInt r.rdx).toNat)).length) r.rsi
      (· = (line (inp.keyboard.take (toInt r.rdx).toNat)).length) := by
    rw [forall_prop_of_true rfl]
    exact does_pokes (harmless_ite harmless_stuck (harmless_done _)) rfl
  have hfile : ∀ data off, Does s
      (copyToUser r.rsi (fileRead data off r.rdx) (.done (fileBytes data off r.rdx)) (.done (-14)))
      (false = true → s.CanStore r.rsi (fileBytes data off r.rdx)) r.rsi
      (· = fileBytes data off r.rdx) := fun data off =>
    does_copy nofun (by rw [fileRead, length_map, length_range])
  have hbad : Does s (.done (-9)) (false = true → s.CanStore r.rsi 0) r.rsi (· = 0) :=
    .of_harmless (harmless_done _) nofun
  unfold sysRead readCount
  dsimp only
  split
  · cases inp.fd 0 with
    | pipeRead arrives closes => exact hpipe arrives closes
    | none | vfs | pipeWrite =>
      dsimp only
      exact hkeys
  · split
    next =>
      cases inp.fd r.rdi with
      | none | pipeWrite => exact hbad
      | vfs data off =>
        dsimp only
        exact hfile data off
      | pipeRead arrives closes => exact hpipe arrives closes
    · exact hbad

theorem does_sysWrite (s : Space) (inp : Inputs) (r : Regs) :
    Does s (sysWrite inp r) (s.CanRead r.rsi (writeCount inp r)) r.rdi (· = 0) := by
  have hpipe : ∀ takes closes, Does s (pipeWrite takes closes r.rsi (toInt r.rdx))
      (s.CanRead r.rsi (min takes (toInt r.rdx).toNat)) r.rdi (· = 0) := fun takes closes =>
    does_peeks (harmless_ite (by cases closes; exacts [harmless_stuck, harmless_done _])
      (harmless_done _))
  have hprint : Does s (printN r.rsi r.rdx (.done r.rdx)) (s.CanRead r.rsi r.rdx) r.rdi (· = 0) :=
    does_peeks (harmless_done _)
  have hbad : Does s (.done (-9)) (s.CanRead r.rsi 0) r.rdi (· = 0) :=
    .of_harmless (harmless_done _) fun j hj => absurd hj (Nat.not_lt_zero j)
  unfold sysWrite writeCount
  split
  · cases inp.fd 1 with
    | pipeWrite takes closes => exact hpipe takes closes
    | none | vfs | pipeRead => exact hprint
  · split
    next =>
      cases inp.fd r.rdi with
      | pipeWrite takes closes => exact hpipe takes closes
      | none | vfs | pipeRead => exact hbad
    · exact hbad

/-- A lookup, and what the call does with the node. -/
theorem does_path {s : Space} {inp : Inputs} {a ptr : Nat} {k : Option Nat → Handler}
    {size : Option Nat → Nat}
    (hk : ∀ o, LeadsTo s inp a o → Does s (k o) True ptr (· = size o)) :
    Does s (vfsFindNode inp.vfs a k) (∃ o, LeadsTo s inp a o) ptr
      fun n => ∃ o, LeadsTo s inp a o ∧ n = size o := by
  obtain ⟨hfound, hlost⟩ := exec_vfsFindNode s inp k a
  refine ⟨fun hn => congrArg Prod.fst (hlost hn), ?_, fun ⟨o, ho⟩ => ⟨_, o, ho, rfl⟩, ?_⟩
  · rintro ⟨o, ho⟩
    rw [Prog.Crashes, hfound o ho]
    exact (hk o ho).ends trivial
  · rintro - n ⟨o, ho, rfl⟩ x
    rw [Prog.stored, hfound o ho]
    exact (hk o ho).stores trivial _ rfl x

theorem does_sysOpen (s : Space) (inp : Inputs) (r : Regs) :
    Does s (sysOpen inp r) (∃ o, LeadsTo s inp r.rdi o) r.rdi (· = 0) := by
  have hpath : Does s (sysOpen inp r) (∃ o, LeadsTo s inp r.rdi o) r.rdi
      fun n => ∃ o, LeadsTo s inp r.rdi o ∧ n = 0 := by
    refine does_path fun o _ => .of_harmless ?_ trivial
    cases o with
    | none => exact harmless_done _
    | some file => exact harmless_ite (harmless_done _) (harmless_done _)
  refine ⟨hpath.crashes, hpath.ends, fun _ => ⟨0, rfl⟩, ?_⟩
  rintro ⟨o, ho⟩ n hn
  exact hpath.stores ⟨o, ho⟩ n ⟨o, ho, hn⟩

theorem harmless_execArgs (s : Space) (inp : Inputs) (argc : Nat) :
    Prog.Harmless s.machine (execArgs inp argc) :=
  harmless_ite (harmless_done _) (harmless_done _)

theorem does_sysExecve (s : Space) (inp : Inputs) (r : Regs) :
    Does s (sysExecve inp r) (r.rdi ≠ 0 → s.StringFrom r.rdi 0 127 ∧
      (s.byte (offset r.rdi 0) ≠ 0#8 → r.rsi ≠ 0 → s.ArgsFrom r.rsi 0 8)) r.rdi (· = 0) := by
  obtain ⟨len, -, hpath, hlen⟩ := @goes_copyString s r.rdi (execPath inp r) 127 0
  obtain ⟨argc, hargs⟩ := @goes_copyArgs s (execArgs inp) 8 r.rsi 0
  unfold sysExecve
  by_cases hnull : r.rdi = 0
  · rw [if_pos hnull]
    exact .of_harmless (harmless_done _) fun hn => absurd hnull hn
  rw [if_neg hnull, forall_prop_of_true hnull]
  by_cases hlen0 : len = 0
  · have hempty : s.byte (offset r.rdi 0) = 0#8 := (hlen.mp hlen0).resolve_left (by decide)
    refine .of_goes (hpath.trans fun _ => .stays fun hn => absurd hempty hn) ?_
    rw [execPath, if_pos hlen0]
    exact harmless_done _
  rw [execPath, if_neg hlen0, copyArgvFromUser] at hpath
  by_cases hargv : r.rsi = 0
  · rw [if_pos hargv] at hpath
    exact .of_goes (hpath.trans fun _ => .stays fun _ hn => absurd hargv hn)
      (harmless_execArgs s inp 0)
  · rw [if_neg hargv] at hpath
    rw [forall_prop_of_true fun hempty => hlen0 (hlen.mpr (.inr hempty)),
      forall_prop_of_true hargv]
    exact .of_goes (hpath.trans fun _ => hargs) (harmless_execArgs s inp argc)

/-- A lookup gives a node of the tree. -/
theorem settled_lt {inp : Inputs} {node n : Nat} {text : List Byte} (hnode : node < inp.vfs.fresh)
    (h : settled inp node text = some (some n)) : n < inp.vfs.fresh := by
  fun_induction settled inp node text with
  | case1 | case3 | case4 => cases h
  | case2 => rwa [← Option.some.inj (Option.some.inj h)]
  | case5 node text d rest h₁ h₂ more seg child hfind =>
    rw [← Option.some.inj (Option.some.inj h)]
    exact (inp.linked.bound node child (mem_of_find?_eq_some hfind)).2
  | case6 node text c rest h₁ h₂ d more h₃ seg child hfind h₄ ih =>
    exact ih (inp.linked.bound node child (mem_of_find?_eq_some hfind)).2 h

theorem does_sysReaddir (s : Space) (inp : Inputs) (r : Regs) :
    Does s (sysReaddir inp r) (∃ o, LeadsTo s inp r.rdi o) r.rsi
      fun n => ∃ o, LeadsTo s inp r.rdi o ∧ n = listingSize inp r.rdx o := by
  refine does_path fun o ho => ?_
  cases o with
  | none => exact .of_harmless (harmless_done _) trivial
  | some dir =>
    have hdir : dir < inp.vfs.fresh := by
      rcases ho with ⟨-, heq⟩ | ⟨-, text, -, heq⟩
      · rw [Option.some.inj heq]
        exact inp.root_lt
      · exact settled_lt inp.root_lt heq
    unfold listNode listingSize
    dsimp only
    by_cases htype : (inp.vfs.nodes dir).type = .directory
    · obtain ⟨out, hout, heq⟩ := Fs.packChildren_eq (k := inp.kbuf) []
        (inp.linked.chain dir hdir) (Nat.lt_succ_of_le (inp.linked.length_le dir))
        (Nat.zero_le (min (r.rdx % 2 ^ 32) 512))
      rw [store_nil, length_nil] at hout
      rw [length_nil, Nat.sub_zero, nil_append] at heq
      rw [if_neg (not_not.mpr htype), if_pos htype, hout]
      refine does_copy trivial ?_
      rw [length_map, length_range, heq, Fs.length_encodeAll]
      rfl
    · rw [if_pos htype, if_neg htype]
      exact .of_harmless (harmless_done _) trivial

theorem does_sysWait (s : Space) (inp : Inputs) (r : Regs) :
    Does s (sysWait inp r) True r.rsi
      (· = if inp.wait > 0 ∧ r.rsi ≠ 0 then inp.status.length else 0) := by
  unfold sysWait
  split
  · exact does_copy trivial rfl
  · exact .of_harmless (harmless_done _) trivial

theorem does_sysPipe (s : Space) (inp : Inputs) (r : Regs) :
    Does s (sysPipe inp r) True r.rdi (· = (inp.pipe.getD []).length) := by
  unfold sysPipe
  cases inp.pipe with
  | none => exact .of_harmless (harmless_done _) trivial
  | some fds => exact does_copy trivial rfl

theorem does_sysFbmap (s : Space) (inp : Inputs) (r : Regs) :
    Does s (sysFbmap inp r) True r.rdi (· = if inp.fbFree then inp.fbInfo.length else 0) := by
  unfold sysFbmap
  split
  · exact does_copy trivial rfl
  · exact .of_harmless (harmless_done _) trivial

theorem does_syscallHandler (s : Space) (inp : Inputs) (r : Regs) :
    Does s (syscallHandler inp r) (PointersOk s inp r) (outputPtr r) (OutputSize s inp r) := by
  unfold syscallHandler PointersOk outputPtr OutputSize
  cases Sys.ofRax r.rax with
  | read => exact does_sysRead s inp r
  | write => exact does_sysWrite s inp r
  | openFile => exact does_sysOpen s inp r
  | pipe => exact does_sysPipe s inp r
  | execve => exact does_sysExecve s inp r
  | wait => exact does_sysWait s inp r
  | readdir => exact does_sysReaddir s inp r
  | mouseRead => exact does_pokes (harmless_ite harmless_stuck (harmless_done _)) rfl
  | fbmap => exact does_sysFbmap s inp r
  | other => exact .of_harmless (harmless_done _) trivial

/-- A system call does not end in the panic branch of `isr_handler` if and only if what it reads and
writes directly can be read and written. -/
theorem no_panic_iff (s : Space) (inp : Inputs) (r : Regs) :
    ¬Prog.Crashes s.machine (syscallHandler inp r) ↔ PointersOk s inp r := by
  have hdoes := does_syscallHandler s inp r
  refine ⟨fun h => ?_, hdoes.ends⟩
  by_contra hn
  exact h (hdoes.crashes hn)

def Space.empty : Space := ⟨fun _ => ⟨false, false, false, false, false⟩, fun _ => 0#8⟩

def noInputs : Inputs where
  fds := fun _ => .none
  keyboard := []
  mouse := []
  vfs := Fs.initVfs
  kids := fun _ => []
  linked := ⟨fun n hn => by obtain rfl : n = 0 := Nat.lt_one_iff.mp hn; rfl,
    fun _ _ h => absurd h not_mem_nil, fun _ _ h => absurd h not_mem_nil⟩
  root_lt := Nat.one_pos
  wait := -1
  status := [0#8, 0#8, 0#8, 0#8]
  pipe := none
  fbFree := false
  fbInfo := replicate 16 0#8
  kbuf := fun _ => 0#8
  result := 0

/-- `open` with a pointer to a page that is not mapped. -/
theorem open_unmapped_panics :
    ¬Space.empty.Readable 0x1000 ∧
      Prog.Crashes Space.empty.machine (syscallHandler noInputs ⟨2, 0x1000, 0, 0⟩) := by
  have hr : ¬Space.empty.Readable 0x1000 := fun h => absurd h.2 Bool.false_ne_true
  refine ⟨hr, (does_syscallHandler ..).crashes ?_⟩
  rintro ⟨o, ⟨h, -⟩ | ⟨-, text, htext, ho⟩⟩
  · exact absurd h (by decide)
  · cases text with
    | nil =>
      rw [settled_slashes rfl] at ho
      cases ho
    | cons b text => exact hr htext.1

/-- A file that is not there is looked for in vain. -/
theorem lookup_of_user_path_missing :
    let s : Space := ⟨fun _ => ⟨true, true, true, false, false⟩,
      fun a => if a = 0x1000 then 0x61#8 else 0#8⟩
    ∃ o, noInputs.vfs.vfsFindNode noInputs.vfs.root [0x61#8] = some o ∧
      Prog.exec s.machine
          (vfsFindNode noInputs.vfs 0x1000 fun o => .done (if o = none then -2 else 3)) =
        Prog.exec s.machine (.done (if o = none then -2 else 3)) := by
  intro s
  have hpage : ∀ a < 2 ^ 47, s.Readable a := fun a ha => ⟨.inl ha, rfl⟩
  exact lookup_of_user_path s noInputs _ (by decide) (by decide)
    ⟨hpage _ (by decide), by decide, hpage _ (by decide), by decide, trivial⟩

/-- A system call stores to pages of its caller only and does not bring the kernel down, if and only
if what it reads and writes directly can be read and written, and every byte of the result's range
that can be stored at ring 0, and before which none faults, lies on a page of the caller. -/
theorem stores_confined_iff (s : Space) (inp : Inputs) (r : Regs) :
    ((∀ x ∈ Prog.stored s.machine (syscallHandler inp r), s.UserPage x) ∧
        ¬Prog.Crashes s.machine (syscallHandler inp r)) ↔
      PointersOk s inp r ∧ ∀ n, OutputSize s inp r n → ∀ j < n,
        (∀ l ≤ j, s.Storable (offset (outputPtr r) l)) → s.UserPage (offset (outputPtr r) j) := by
  have hdoes := does_syscallHandler s inp r
  constructor
  · rintro ⟨h, hend⟩
    have hok : PointersOk s inp r := by
      by_contra hn
      exact hend (hdoes.crashes hn)
    refine ⟨hok, fun n hn j hj hl => h _ ((hdoes.stores hok n hn _).mpr ⟨j, hj, ?_, ?_⟩)⟩
    · rw [Nat.zero_add]
    · intro l hle
      rw [Nat.zero_add]
      exact hl l hle
  · rintro ⟨hok, h⟩
    refine ⟨fun x hx => ?_, hdoes.ends hok⟩
    obtain ⟨n, hn⟩ := hdoes.exists_size hok
    obtain ⟨j, hj, rfl, hl⟩ := (hdoes.stores hok n hn x).mp hx
    simp only [Nat.zero_add] at hl ⊢
    exact h n hn j hj hl

/-- The kernel half is mapped for the kernel alone, and nothing else is mapped. -/
def kernelHalf : Space where
  page n := ⟨decide ((2 ^ 64 - 2 ^ 47) / 4096 ≤ n), false, true, false, false⟩
  byte _ := 0#8

/-- The descriptors of a new pipe are ready to be copied out. -/
def pipeInputs : Inputs := { noInputs with pipe := some (replicate 8 3#8) }

/-- `pipe` with a pointer into the kernel half writes there, and returns `0`. -/
theorem pipe_writes_kernel :
    0xffff800000000000 ∈ Prog.stored kernelHalf.machine
        (syscallHandler pipeInputs ⟨22, 0xffff800000000000, 0, 0⟩) ∧
      ¬kernelHalf.UserPage 0xffff800000000000 := by
  have hdoes := does_syscallHandler kernelHalf pipeInputs ⟨22, 0xffff800000000000, 0, 0⟩
  refine ⟨(hdoes.stores trivial 8 rfl _).mpr ?_, by decide⟩
  refine ⟨0, by decide, by decide, ?_⟩
  intro l hl
  obtain rfl : l = 0 := Nat.le_zero.mp hl
  exact ⟨.inr (by decide), by decide, .inl rfl⟩

end Aeryk.User
