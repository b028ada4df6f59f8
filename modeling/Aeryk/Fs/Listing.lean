import Aeryk.Fs.Lookup
import Aeryk.Lib.Cyclic
import Aeryk.Lib.Texts

/-!
# Listing a directory

`SYS_readdir` packs the children of a directory into a buffer of the kernel, each as its name, a
slash if it is a directory, and a newline, and copies the buffer to the caller.  `tree` of the
userland takes the entries apart again.

The kernel stops at the first child that does not fit, and takes the size of the caller's buffer
from the low 32 bits of a register.  `tree` keeps 63 bytes of a name, and a name in the kernel may
have 127.  A listing is `Faithful` exactly if neither of the two cuts anything off.
-/

namespace Aeryk.Fs

open List Function Lib

/-- `'\n'`. -/
def newline : Byte := 0x0a#8

/-- A name and whether it is the name of a directory. -/
structure Child where
  name : List Byte
  isDir : Bool
deriving DecidableEq

/-! ## The kernel -/

/-- The value in `rax` and the bytes copied to the caller. -/
structure Listing where
  rax : Nat
  copied : List Byte

namespace Vfs

/-- The loop over the children: the buffer and `written`. -/
def packChildren (s : Vfs) (bufsize : Nat) :
    Nat → Option Nat → (Nat → Byte) → Nat → Option ((Nat → Byte) × Nat)
  | 0, _, _, _ => none
  | _ + 1, none, kbuf, written => some (kbuf, written)
  | fuel + 1, some child, kbuf, written =>
    let x := s.nodes child
    let namelen := x.name.length
    let needed := if x.type = .directory then namelen + 1 + 1 else namelen + 1
    if written + needed > bufsize then some (kbuf, written)
    else
      let kbuf := store kbuf written x.name
      let written := written + namelen
      if x.type = .directory then
        let kbuf := update kbuf written slash
        let kbuf := update kbuf (written + 1) newline
        s.packChildren bufsize fuel x.next kbuf (written + 2)
      else
        let kbuf := update kbuf written newline
        s.packChildren bufsize fuel x.next kbuf (written + 1)

/-- `SYS_readdir`.  `kbuf` is what the buffer holds at first, and `writable` says whether
`copy_to_user` can write. -/
def sysReaddir (s : Vfs) (path : List Byte) (rdx : Nat) (kbuf : Nat → Byte) (writable : Bool) :
    Option Listing :=
  match s.vfsFindNode s.root path with
  | none => none
  -- `-ENOENT`
  | some none => some ⟨2 ^ 64 - 2, []⟩
  | some (some dir) =>
    -- `-ENOTDIR`
    if (s.nodes dir).type ≠ .directory then some ⟨2 ^ 64 - 20, []⟩
    else
      let bufsize := rdx % 2 ^ 32
      let bufsize := if bufsize > 512 then 512 else bufsize
      match s.packChildren bufsize (s.fresh + 1) (s.nodes dir).children kbuf 0 with
      | none => none
      | some (kbuf, written) =>
        -- `-EFAULT`
        if 0 < written ∧ writable = false then some ⟨2 ^ 64 - 14, []⟩
        else some ⟨written, (range written).map kbuf⟩

end Vfs

/-! ## The userland -/

/-- `MAX_NAME` of `tree.c`. -/
def maxName : Nat := 64

/-- The loop of `tree` over the `n` bytes of a listing, from byte `i` on: the entries it finds. -/
def parseFrom (buf : Nat → Byte) (n : Nat) : Nat → Nat → List Child
  | 0, _ => []
  | fuel + 1, start =>
    if start < n then
      let i := advance (fun i => i < n && buf i ≠ newline) n start
      let len := i - start
      let next := if i < n then i + 1 else i
      let isDir := len > 0 && buf (start + len - 1) = slash
      let len := if isDir then len - 1 else len
      if len = 0 then parseFrom buf n fuel next
      else
        let len := if len ≥ maxName then maxName - 1 else len
        ⟨(range len).map fun k => buf (start + k), isDir⟩ :: parseFrom buf n fuel next
    else []

/-- The entries `tree` finds in a listing.  Each turn takes a byte at least. -/
def parseListing (buf : Nat → Byte) (n : Nat) : List Child := parseFrom buf n n 0

/-! ## What a listing is to be -/

def Child.encode (e : Child) : List Byte := e.name ++ (if e.isDir then [slash] else []) ++ [newline]

def encodeAll (es : List Child) : List Byte := es.flatMap Child.encode

def Node.entry (x : Node) : Child := ⟨x.name, decide (x.type = .directory)⟩

/-- The listing encodes the longest start of the entries that fits, and is taken apart to these. -/
def Faithful (entries : List Child) (room : Nat) (answer : Listing) : Prop :=
  ∃ p, p <+: entries ∧ (encodeAll p).length ≤ room ∧
    (∀ q, q <+: entries → (encodeAll q).length ≤ room → q <+: p) ∧
    answer.copied = encodeAll p ∧ answer.rax = (encodeAll p).length ∧
    ∀ buf, parseListing (store buf 0 answer.copied) answer.rax = p

structure ListName (name : List Byte) : Prop where
  ne_nil : name ≠ []
  length_le : name.length ≤ 127
  slash : slash ∉ name
  newline : newline ∉ name

/-! ## Packing -/

section

variable {s : Vfs} {bufsize fuel : Nat} {k : Nat → Byte} {done : List Byte} {e : Child}
  {es p : List Child} {l : List Nat} {start : Option Nat}

def Child.size (e : Child) : Nat := e.encode.length

theorem length_encodeAll (es : List Child) : (encodeAll es).length = (es.map Child.size).sum := by
  unfold encodeAll Child.size
  rw [length_flatMap]

/-- One byte more. -/
theorem update_store (k : Nat → Byte) (done : List Byte) (b : Byte) :
    update (store k 0 done) done.length b = store k 0 (done ++ [b]) := by
  have happend := store_append k 0 done [b]
  rw [Nat.zero_add] at happend
  rw [← happend]
  funext j
  by_cases hj : j = done.length
  · subst hj
    have hin := store_inside (b := store k 0 done) (i := done.length) (w := [b]) (j := 0) (by simp)
    rw [update_self]
    exact hin.symm
  · have hout : ¬(done.length ≤ j ∧ j < done.length + [b].length) := by
      rw [length_singleton]
      omega
    rw [update_of_ne hj, store_outside hout]

theorem store_name (k : Nat → Byte) (done name : List Byte) :
    store (store k 0 done) done.length name = store k 0 (done ++ name) := by
  have happend := store_append k 0 done name
  rwa [Nat.zero_add] at happend

/-- One turn of the loop packs an entry. -/
theorem packChildren_cons (c : Nat) :
    s.packChildren bufsize (fuel + 1) (some c) (store k 0 done) done.length =
      if done.length + (s.nodes c).entry.size > bufsize then some (store k 0 done, done.length)
      else
        s.packChildren bufsize fuel (s.nodes c).next (store k 0 (done ++ (s.nodes c).entry.encode))
          (done ++ (s.nodes c).entry.encode).length := by
  rw [Vfs.packChildren]
  generalize s.nodes c = x
  have hname : store (store k 0 done) done.length x.name = store k 0 (done ++ x.name) :=
    store_name k done x.name
  have hlen : done.length + x.name.length = (done ++ x.name).length := length_append.symm
  cases hdir : x.type with
  | directory =>
    have hencode : x.entry.encode = x.name ++ [slash] ++ [newline] := by
      simp [Node.entry, Child.encode, hdir]
    have hsize : x.entry.size = x.name.length + 1 + 1 := by
      rw [Child.size, hencode]
      simp
    have hone : done.length + x.name.length + 1 = (done ++ x.name ++ [slash]).length := by
      simp
      omega
    have htwo : done.length + x.name.length + 2 =
        (done ++ (x.name ++ [slash] ++ [newline])).length := by
      simp
      omega
    dsimp only
    rw [if_pos rfl, if_pos rfl, hsize, hname, hlen, update_store, ← hlen, hone, update_store,
      hencode, htwo, append_assoc, append_assoc, append_assoc]
  | file =>
    have hencode : x.entry.encode = x.name ++ [newline] := by
      simp [Node.entry, Child.encode, hdir]
    have hsize : x.entry.size = x.name.length + 1 := by
      rw [Child.size, hencode]
      simp
    have hone : done.length + x.name.length + 1 = (done ++ (x.name ++ [newline])).length := by
      simp
      omega
    simp only [reduceCtorEq, if_false]
    rw [hsize, hname, hlen, update_store, ← hlen, hencode, hone, append_assoc]

/-- The loop packs what fits behind what is there. -/
theorem packChildren_eq (done : List Byte) (hchain : Chain (fun i => (s.nodes i).next) start l)
    (hfuel : l.length < fuel) (hroom : done.length ≤ bufsize) :
    ∃ out, s.packChildren bufsize fuel start (store k 0 done) done.length =
        some (store k 0 out, out.length) ∧
      out = done ++ encodeAll (fitting Child.size (bufsize - done.length)
        (l.map fun i => (s.nodes i).entry)) := by
  induction l generalizing start fuel done with
  | nil =>
    obtain ⟨fuel, rfl⟩ := Nat.exists_eq_succ_of_ne_zero (Nat.ne_of_gt hfuel)
    rw [chain_nil.mp hchain]
    exact ⟨done, rfl, (append_nil done).symm⟩
  | cons c l ih =>
    obtain ⟨fuel, rfl⟩ :=
      Nat.exists_eq_succ_of_ne_zero (Nat.ne_of_gt (Nat.zero_lt_of_lt hfuel))
    obtain ⟨rfl, hrest⟩ := hchain
    rw [packChildren_cons, map_cons, fitting]
    generalize (s.nodes c).entry = e
    by_cases hfit : done.length + e.size > bufsize
    · refine ⟨done, if_pos hfit, ?_⟩
      rw [if_neg (by omega)]
      exact (append_nil done).symm
    · have hlen : (done ++ e.encode).length = done.length + e.size := length_append
      obtain ⟨out, hout, heq⟩ := ih (done ++ e.encode) hrest
        (Nat.lt_of_succ_lt_succ hfuel) (by omega)
      refine ⟨out, (if_neg hfit).trans hout, ?_⟩
      rw [heq, if_pos (by omega), hlen, Nat.sub_add_eq, append_assoc]
      rfl

/-! ## Taking apart -/

/-- What `tree` keeps of an entry. -/
def Child.cut (e : Child) : Child := { e with name := e.name.take (maxName - 1) }

/-- The text of an entry before its newline. -/
def Child.text (e : Child) : List Byte := e.name ++ if e.isDir then [slash] else []

theorem Child.encode_eq (e : Child) : e.encode = e.text ++ [newline] := rfl

section

variable {buf : Nat → Byte} {n : Nat} {pre more : List Byte}

/-- The last byte of the text tells what the entry is. -/
theorem Child.last_text (he : ListName e.name) :
    (e.text.getD (e.text.length - 1) 0#8 = slash) ↔ e.isDir = true := by
  have hpos := length_pos_iff.mpr he.ne_nil
  unfold Child.text
  cases e.isDir with
  | true =>
    have hlast : (e.name ++ [slash]).length - 1 = e.name.length := by simp
    rw [if_pos rfl, hlast, getD_append_length]
    exact iff_of_true rfl rfl
  | false =>
    have hlt : e.name.length - 1 < e.name.length := by omega
    rw [if_neg Bool.false_ne_true, append_nil, getD_eq_getElem _ _ hlt]
    exact iff_of_false (fun h => he.slash (h ▸ getElem_mem hlt)) Bool.false_ne_true

theorem Child.newline_text (he : ListName e.name) : newline ∉ e.text := by
  unfold Child.text
  rw [mem_append, not_or]
  refine ⟨he.newline, ?_⟩
  split
  · decide
  · exact not_mem_nil

/-- One turn of the loop takes an entry. -/
theorem parseFrom_cons (he : ListName e.name) (hn : n = (pre ++ (e.encode ++ more)).length)
    (hbuf : ∀ i < n, buf i = (pre ++ (e.encode ++ more)).getD i 0#8) (fuel : Nat) :
    parseFrom buf n (fuel + 1) pre.length =
      e.cut :: parseFrom buf n fuel (pre ++ e.encode).length := by
  rw [Child.encode_eq, append_assoc, singleton_append] at hn hbuf
  have hlen : n = pre.length + (e.text.length + (more.length + 1)) := by
    rw [hn, length_append, length_append, length_cons]
  have htext : ∀ k, (hk : k < e.text.length) → buf (pre.length + k) = e.text.getD k 0#8 := by
    intro k hk
    rw [hbuf _ (by omega), getD_append_add, getD_append _ _ _ _ hk]
  have hstop : advance (fun i => i < n && buf i ≠ newline) n pre.length =
      pre.length + e.text.length := by
    refine advance_eq (fun k hk => ?_) ?_ (by omega)
    · have hne : buf (pre.length + k) ≠ newline := by
        rw [htext k hk, getD_eq_getElem _ _ hk]
        exact fun h => e.newline_text he (h ▸ getElem_mem hk)
      have hin : pre.length + k < n := by omega
      simp [hin, hne]
    · have hend : buf (pre.length + e.text.length) = newline := by
        rw [hbuf _ (by omega), getD_append_add, getD_append_length]
        rfl
      simp [hend]
  have hpos := length_pos_iff.mpr he.ne_nil
  have hsize : e.text.length = e.name.length + if e.isDir then 1 else 0 := by
    unfold Child.text
    rw [length_append]
    split <;> rfl
  have hmark : (decide (e.text.length > 0) &&
      decide (buf (pre.length + e.text.length - 1) = slash)) = e.isDir := by
    have hlast := htext (e.text.length - 1) (by omega)
    rw [← Nat.add_sub_assoc (by omega)] at hlast
    rw [decide_eq_true (show e.text.length > 0 by omega), Bool.true_and, hlast, Bool.eq_iff_iff,
      decide_eq_true_iff]
    exact e.last_text he
  have hname : (if e.isDir = true then e.text.length - 1 else e.text.length) = e.name.length := by
    rw [hsize]
    split <;> rfl
  have hnext : (pre ++ e.encode).length = pre.length + e.text.length + 1 := by
    rw [Child.encode_eq, length_append, length_append]
    rfl
  rw [parseFrom, if_pos (by omega), hstop]
  dsimp only
  rw [Nat.add_sub_cancel_left, hmark, hname, if_neg (by omega),
    if_pos (show pre.length + e.text.length < n by omega), hnext]
  congr 2
  -- the bytes of the name that are kept
  have hkept : (if e.name.length ≥ maxName then maxName - 1 else e.name.length) =
      (e.name.take (maxName - 1)).length := by
    rw [length_take]
    unfold maxName
    split <;> omega
  rw [hkept]
  refine ext_getElem (by simp) fun k hk hk' => ?_
  have hin : k < e.name.length := by
    rw [length_take] at hk'
    omega
  rw [getElem_map, getElem_range, htext k (by omega), getElem_take, Child.text,
    getD_append _ _ _ _ hin, getD_eq_getElem _ _ hin]

/-- What `tree` makes of entries one after the other. -/
theorem parseFrom_eq (pre : List Byte) (hes : ∀ e ∈ es, ListName e.name)
    (hn : n = (pre ++ encodeAll es).length)
    (hbuf : ∀ i < n, buf i = (pre ++ encodeAll es).getD i 0#8) (hfuel : es.length ≤ fuel) :
    parseFrom buf n fuel pre.length = es.map Child.cut := by
  induction es generalizing pre fuel with
  | nil =>
    have hend : ¬pre.length < n := by
      rw [hn]
      simp [encodeAll]
    cases fuel with
    | zero => rfl
    | succ fuel => rw [parseFrom, if_neg hend, map_nil]
  | cons e es ih =>
    obtain ⟨fuel, rfl⟩ :=
      Nat.exists_eq_succ_of_ne_zero (Nat.ne_of_gt (Nat.zero_lt_of_lt hfuel))
    have hsplit : encodeAll (e :: es) = e.encode ++ encodeAll es := flatMap_cons
    rw [hsplit] at hn hbuf
    rw [parseFrom_cons (hes e mem_cons_self) hn hbuf, map_cons]
    rw [← append_assoc] at hn hbuf
    rw [ih (pre ++ e.encode) (fun e he => hes e (mem_cons_of_mem _ he)) hn hbuf
      (Nat.le_of_succ_le_succ hfuel)]

theorem length_le_encodeAll (es : List Child) : es.length ≤ (encodeAll es).length := by
  rw [length_encodeAll]
  induction es with
  | nil => exact Nat.le_refl 0
  | cons e es ih =>
    have hone : 1 ≤ e.size := by
      rw [Child.size, Child.encode_eq, length_append]
      exact Nat.le_add_left 1 _
    rw [length_cons, map_cons, sum_cons]
    omega

theorem parseListing_eq (hes : ∀ e ∈ es, ListName e.name) (buf : Nat → Byte) :
    parseListing (store buf 0 (encodeAll es)) (encodeAll es).length = es.map Child.cut := by
  refine parseFrom_eq [] hes rfl (fun i hi => ?_) (length_le_encodeAll es)
  have hin := store_inside (b := buf) (i := 0) hi
  rw [Nat.zero_add] at hin
  rw [hin, nil_append, getD_eq_getElem _ _ hi]

theorem Child.cut_eq_iff (e : Child) : e.cut = e ↔ e.name.length ≤ 63 := by
  have hname : e.cut = e ↔ e.name.take (maxName - 1) = e.name := by
    unfold Child.cut
    rw [Child.mk.injEq, and_iff_left rfl]
  rw [hname, take_eq_self_iff]
  rfl

theorem map_cut_eq_iff (es : List Child) :
    es.map Child.cut = es ↔ ∀ e ∈ es, e.name.length ≤ 63 := by
  have hid : es.map Child.cut = es ↔ ∀ e ∈ es, e.cut = e := by
    conv_lhs => rhs; rw [← map_id es]
    exact map_inj_left
  rw [hid]
  exact forall₂_congr fun e _ => e.cut_eq_iff

end

end

/-! ## The whole way -/

section

variable {s : Vfs} {kids : Nat → List Nat} {path : List Byte} {n rdx : Nat} {es p : List Child}

def Vfs.entries (s : Vfs) (kids : Nat → List Nat) (n : Nat) : List Child :=
  (kids n).map fun k => (s.nodes k).entry

/-- The longest start of the entries that fits is unique. -/
theorem eq_fitting {room : Nat} (hp : p <+: es) (hfit : (encodeAll p).length ≤ room)
    (hmax : ∀ q, q <+: es → (encodeAll q).length ≤ room → q <+: p) :
    p = fitting Child.size room es := by
  have hless : p <+: fitting Child.size room es := by
    refine prefix_fitting hp ?_
    rwa [← length_encodeAll]
  have hmore : fitting Child.size room es <+: p := by
    refine hmax _ (fitting_isPrefix _ _ _) ?_
    rw [length_encodeAll]
    exact sum_fitting_le _ _ _
  exact hless.eq_of_length (Nat.le_antisymm hless.length_le hmore.length_le)

/-- What `SYS_readdir` answers. -/
theorem sysReaddir_eq (h : Linked s kids) (hn : n < s.fresh)
    (hfind : s.vfsFindNode s.root path = some (some n)) (hdir : (s.nodes n).type = .directory)
    (rdx : Nat) (kbuf : Nat → Byte) :
    s.sysReaddir path rdx kbuf true =
      some ⟨(encodeAll (fitting Child.size (min (rdx % 2 ^ 32) 512) (s.entries kids n))).length,
        encodeAll (fitting Child.size (min (rdx % 2 ^ 32) 512) (s.entries kids n))⟩ := by
  have hsize : (if rdx % 2 ^ 32 > 512 then 512 else rdx % 2 ^ 32) = min (rdx % 2 ^ 32) 512 := by
    split <;> omega
  obtain ⟨out, hout, heq⟩ := packChildren_eq (k := kbuf) [] (h.chain n hn)
    (Nat.lt_succ_of_le (h.length_le n)) (Nat.zero_le (min (rdx % 2 ^ 32) 512))
  rw [store_nil, length_nil] at hout
  rw [length_nil, Nat.sub_zero, nil_append] at heq
  have hcopy : (range out.length).map (store kbuf 0 out) = out := by
    refine ext_getElem (by simp) fun i hi hi' => ?_
    have hin := store_inside (b := kbuf) (i := 0) hi'
    rw [Nat.zero_add] at hin
    rw [getElem_map, getElem_range, hin]
  rw [Vfs.sysReaddir, hfind]
  dsimp only
  rw [if_neg (not_not.mpr hdir), hsize, hout]
  dsimp only
  rw [if_neg (by simp), hcopy, heq]
  rfl

/-- A listing is faithful exactly if the 32 bits of the size are enough for what fits into the
size, and all names in it have at most 63 bytes. -/
theorem readdir_faithful_iff (h : Linked s kids) (hn : n < s.fresh)
    (hfind : s.vfsFindNode s.root path = some (some n)) (hdir : (s.nodes n).type = .directory)
    (hnames : ∀ k ∈ kids n, ListName (s.nameOf k)) (kbuf : Nat → Byte) :
    (∃ answer, s.sysReaddir path rdx kbuf true = some answer ∧
        Faithful (s.entries kids n) (min rdx 512) answer) ↔
      (encodeAll (fitting Child.size (min rdx 512) (s.entries kids n))).length ≤ rdx % 2 ^ 32 ∧
        ∀ e ∈ fitting Child.size (min rdx 512) (s.entries kids n), e.name.length ≤ 63 := by
  rw [sysReaddir_eq h hn hfind hdir]
  have hlist : ∀ {room}, ∀ e ∈ fitting Child.size room (s.entries kids n),
      ListName e.name := by
    intro room e he
    obtain ⟨k, hk, rfl⟩ := mem_map.mp ((fitting_isPrefix _ _ _).subset he)
    exact hnames k hk
  have hroom : min (rdx % 2 ^ 32) 512 ≤ min rdx 512 := by
    have := Nat.mod_le rdx (2 ^ 32)
    omega
  have hsum := sum_fitting_le Child.size (min rdx 512) (s.entries kids n)
  have hsum' := sum_fitting_le Child.size (min (rdx % 2 ^ 32) 512) (s.entries kids n)
  rw [← length_encodeAll] at hsum hsum'
  constructor
  · rintro ⟨answer, heq, p, hp, hfit, hmax, hcopied, -, hparse⟩
    obtain rfl := eq_fitting hp hfit hmax
    obtain rfl := Option.some.inj heq
    dsimp only at hcopied hparse
    rw [hcopied] at hparse hsum'
    have hcut := hparse fun _ => 0#8
    rw [parseListing_eq hlist, map_cut_eq_iff] at hcut
    exact ⟨hsum'.trans (Nat.min_le_left _ _), hcut⟩
  · rintro ⟨hle, hshort⟩
    have hsame := (fitting_eq_iff hroom).mpr (by
      rw [← length_encodeAll]
      exact Nat.le_min.mpr ⟨hle, hsum.trans (Nat.min_le_right _ _)⟩)
    rw [hsame]
    refine ⟨_, rfl, _, fitting_isPrefix _ _ _, hsum, fun q hq hfit => ?_, rfl, rfl,
      fun buf => ?_⟩
    · refine prefix_fitting hq ?_
      rwa [← length_encodeAll]
    · rw [parseListing_eq hlist]
      exact (map_cut_eq_iff _).mpr hshort

/-- A root with a file whose name has 64 bytes. -/
def longName : Vfs where
  nodes i :=
    if i = 0 then ⟨[], .directory, 0, 0, none, some 1, none⟩
    else ⟨replicate 64 0x61#8, .file, 0, 0, some 0, none, none⟩
  fresh := 2
  root := 0

theorem linked_longName : Linked longName fun n => if n = 0 then [1] else [] := by
  refine ⟨?_, ?_, ?_⟩
  · intro n hn
    have hcases : n = 0 ∨ n = 1 := by
      have : n < 2 := hn
      omega
    rcases hcases with rfl | rfl
    · exact ⟨rfl, rfl⟩
    · rfl
  · intro n k hk
    split at hk
    next hn =>
      rw [hn, mem_singleton.mp hk]
      decide
    · cases hk
  · intro n k hk
    split at hk
    · rw [mem_singleton.mp hk]
      decide
    · cases hk

/-- `tree` finds a shorter name. -/
theorem long_name_cut :
    (∀ k ∈ [1], ListName (longName.nameOf k)) ∧
      ¬∃ answer, longName.sysReaddir [slash] 512 (fun _ => 0#8) true = some answer ∧
        Faithful (longName.entries (fun n => if n = 0 then [1] else []) 0) 512 answer := by
  have hname : ListName (longName.nameOf 1) := ⟨by decide, by decide, by decide, by decide⟩
  refine ⟨fun k hk => mem_singleton.mp hk ▸ hname, ?_⟩
  rw [sysReaddir_eq linked_longName (n := 0) (by decide) (vfsFindNode_slashes rfl) rfl]
  have hfit : fitting Child.size (min (512 % 2 ^ 32) 512)
      (longName.entries (fun n => if n = 0 then [1] else []) 0) = [(longName.nodes 1).entry] := by
    decide
  rw [hfit]
  rintro ⟨answer, heq, p, hp, -, -, -, -, hparse⟩
  obtain rfl := Option.some.inj heq
  have hcut := hparse fun _ => 0#8
  rw [parseListing_eq fun e he => mem_singleton.mp he ▸ hname] at hcut
  have hone : p = [(longName.nodes 1).entry] := by
    rw [← hcut] at hp ⊢
    exact hp.eq_of_length rfl
  rw [hone, map_cut_eq_iff] at hcut
  exact absurd (hcut _ (mem_singleton_self _)) (by decide)

/-- The listing of a root with two files. -/
theorem readdir_faithful_iff_smallTree :
    ∃ answer, smallTree.sysReaddir [slash] 512 (fun _ => 0#8) true = some answer ∧
      Faithful (smallTree.entries (fun n => if n = 0 then [2, 1] else []) 0) (min 512 512)
        answer := by
  refine (readdir_faithful_iff linked_smallTree (n := 0) (by decide) (vfsFindNode_slashes rfl) rfl
    ?_ _).mpr ⟨by decide, by decide⟩
  intro k hk
  fin_cases hk
  · exact ⟨by decide, by decide, by decide, by decide⟩
  · exact ⟨by decide, by decide, by decide, by decide⟩

end

end Aeryk.Fs
