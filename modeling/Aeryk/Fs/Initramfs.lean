import Aeryk.Fs.Vfs

/-!
# The initial file system

`initramfs_init` reads a cpio archive in the `newc` format and makes a node for each entry: a
header of 110 bytes with numbers in hexadecimal digits, the name with its `NUL`, and the contents,
the last two filled up to multiples of four.

What `vfs_find_node` finds is what the archive says: the files with their contents, the directories
that are listed or that a listed path goes through, each once, and nothing else.  Each entry keeps
this for the part of the archive read so far (`Meaning`), in whatever order directories and their
members come.  Names are read up to their `NUL` within the archive.
-/

namespace Aeryk.Fs

open List Lib

/-! ## The code -/

/-- `'.'`. -/
def dot : Byte := 0x2e#8

def align4 (val : Nat) : Nat := (val + 3) % 2 ^ 64 / 4 * 4

/-- One digit of `parse_hex_str`. -/
def hexStep (val : Nat) (c : Byte) : Nat :=
  let val := val * 16 % 2 ^ 32
  if 0x30 ≤ c.toNat ∧ c.toNat ≤ 0x39 then val ||| (c.toNat - 0x30)
  else if 0x41 ≤ c.toNat ∧ c.toNat ≤ 0x46 then val ||| (c.toNat - 0x41 + 10)
  else if 0x61 ≤ c.toNat ∧ c.toNat ≤ 0x66 then val ||| (c.toNat - 0x61 + 10)
  else val

def parseHexStr (str : List Byte) : Nat := str.foldl hexStep 0

/-- `"070701"`, which is `MAGIC_NEWC`. -/
def magicNewc : List Byte := [0x30#8, 0x37#8, 0x30#8, 0x37#8, 0x30#8, 0x31#8]

/-- `"070702"`, which is `MAGIC_CRC`. -/
def magicCrc : List Byte := [0x30#8, 0x37#8, 0x30#8, 0x37#8, 0x30#8, 0x32#8]

def trailer : List Byte :=
  [0x54#8, 0x52#8, 0x41#8, 0x49#8, 0x4c#8, 0x45#8, 0x52#8, 0x21#8, 0x21#8, 0x21#8]

/-- The string at an address, of which `n` bytes may be read. -/
def cString (mem : Bytes) (a : Nat) : Nat → List Byte
  | 0 => []
  | n + 1 => if mem a = 0#8 then [] else mem a :: cString mem (a + 1) n

def stripDot : List Byte → List Byte
  | a :: b :: rest => if a = dot ∧ b = slash then rest else a :: b :: rest
  | name => name

/-- The loop that looks for the last segment. -/
def leafFrom (leaf : List Byte) : List Byte → List Byte
  | [] => leaf
  | c :: rest => if c = slash then leafFrom rest rest else leafFrom leaf rest

def leafName (filename : List Byte) : List Byte := leafFrom filename filename

def Vfs.addEntry (s : Vfs) (filename : List Byte) (mode filesize dataAddr : Nat) : Option Vfs :=
  match s.createDirectories s.root filename with
  | none => none
  | some (s, parentDir) =>
    if mode &&& 0xF000 = 0x4000 then
      match s.vfsFindNode parentDir (leafName filename) with
      | none => none
      | some (some _) => some s
      | some none =>
        let o := s.vfsCreateNode (leafName filename) .directory
        some (o.1.vfsAddChild parentDir o.2)
    else if mode &&& 0xF000 = 0x8000 then
      let o := s.vfsCreateNode (leafName filename) .file
      let s := o.1.modify o.2 fun x => { x with size := filesize }
      let s := s.modify o.2 fun x => { x with data := dataAddr }
      some (s.vfsAddChild parentDir o.2)
    else some s

/-- One turn of the loop of `initramfs_init`: the next header if it does not break, and the
nodes. -/
def initramfsTurn (mem : Bytes) (endAddr currentAddr : Nat) (s : Vfs) :
    Option (Option Nat × Vfs) :=
  if bytesAt mem currentAddr 6 ≠ magicNewc ∧ bytesAt mem currentAddr 6 ≠ magicCrc then
    some (none, s)
  else
    let filesize := parseHexStr (bytesAt mem (currentAddr + 54) 8)
    let namesize := parseHexStr (bytesAt mem (currentAddr + 94) 8)
    let mode := parseHexStr (bytesAt mem (currentAddr + 14) 8)
    let filename := currentAddr + 110
    if bytesAt mem filename 10 = trailer then some (none, s)
    else
      let dataAddr := align4 (filename + namesize)
      let name := stripDot (cString mem filename (endAddr - filename))
      let s := if name = [dot] then some s else s.addEntry name mode filesize dataAddr
      s.map fun s => (some (align4 (dataAddr + filesize)), s)

/-- The loop of `initramfs_init`.  It answers `none` where `fuel` is not enough. -/
def initramfsLoop (mem : Bytes) (endAddr : Nat) : Nat → Nat → Vfs → Option Vfs
  | 0, _, _ => none
  | fuel + 1, currentAddr, s =>
    if currentAddr < endAddr then
      match initramfsTurn mem endAddr currentAddr s with
      | none => none
      | some (none, s) => some s
      | some (some nextAddr, s) => initramfsLoop mem endAddr fuel nextAddr s
    else some s

/-- `initramfs_init`.  Every entry has more than one byte. -/
def initramfsInit (mem : Bytes) (base size : Nat) : Option Vfs :=
  initramfsLoop mem ((base + size) % 2 ^ 64) (size + 1) base initVfs

/-! ## Archives -/

structure Entry where
  dir : Bool
  /-- The name starts with `"./"`. -/
  dotSlash : Bool
  path : List (List Byte)
  content : List Byte

namespace Entry

def name (e : Entry) : List Byte :=
  (if e.dotSlash then [dot, slash] else []) ++ joinPath e.path

end Entry

def pad (n : Nat) : Nat := (n + 3) / 4 * 4

/-- The offset of the contents of an entry with its header at `o`. -/
def Entry.dataAt (e : Entry) (o : Nat) : Nat := pad (o + 110 + (e.name.length + 1))

def Entry.next (e : Entry) (o : Nat) : Nat := pad (e.dataAt o + e.content.length)

/-- The byte is a hexadecimal digit of value `d`. -/
def HexDigit (c : Byte) (d : Nat) : Prop :=
  (d < 10 ∧ c.toNat = 0x30 + d) ∨ (10 ≤ d ∧ d < 16 ∧ (c.toNat = 0x37 + d ∨ c.toNat = 0x57 + d))

instance (c : Byte) (d : Nat) : Decidable (HexDigit c d) := inferInstanceAs (Decidable (_ ∨ _))

/-- The eight bytes at `a` are the digits of a number. -/
def Field (mem : Bytes) (a v : Nat) : Prop :=
  ∃ ds, List.Forall₂ HexDigit (bytesAt mem a 8) ds ∧ ds.foldl (fun v d => v * 16 + d) 0 = v

def MagicAt (mem : Bytes) (a : Nat) : Prop :=
  bytesAt mem a 6 = magicNewc ∨ bytesAt mem a 6 = magicCrc

/-- The entry is in the archive at `base`, with its header at offset `o`. -/
structure EntryAt (mem : Bytes) (base o : Nat) (e : Entry) : Prop where
  magic : MagicAt mem (base + o)
  mode : ∃ mode, Field mem (base + o + 14) mode ∧
    mode &&& 0xF000 = if e.dir then 0x4000 else 0x8000
  filesize : Field mem (base + o + 54) e.content.length
  namesize : Field mem (base + o + 94) (e.name.length + 1)
  name : bytesAt mem (base + o + 110) (e.name.length + 1) = e.name ++ [0#8]
  content : bytesAt mem (base + e.dataAt o) e.content.length = e.content

/-- The entries follow each other from offset `o` on, and behind them is the trailer, within
`size` bytes. -/
def ArchiveAt (mem : Bytes) (base size : Nat) : List Entry → Nat → Prop
  | [], o => o + 120 ≤ size ∧ MagicAt mem (base + o) ∧ bytesAt mem (base + o + 110) 10 = trailer
  | e :: es, o => EntryAt mem base o e ∧ ArchiveAt mem base size es (e.next o)

/-- Paths have segments of up to 127 bytes, none of them `"."`, and are different.  No file is
where another path goes through, and no name starts like the trailer. -/
structure WellFormed (es : List Entry) : Prop where
  path : ∀ e ∈ es, e.path ≠ []
  segment : ∀ e ∈ es, ∀ c ∈ e.path, Segment c ∧ c.length ≤ 127 ∧ c ≠ [dot]
  distinct : (es.map Entry.path).Nodup
  leaf : ∀ e ∈ es, e.dir = false → ∀ e' ∈ es, e.path <+: e'.path → e.path = e'.path
  trailer : ∀ e ∈ es, ¬trailer <+: e.name

/-! ## Numbers -/

section

variable {mem : Bytes} {a n o base size v : Nat} {c : Byte} {cs name leaf r : List Byte}
  {ds : List Nat} {d : Nat}

theorem HexDigit.lt (h : HexDigit c d) : d < 16 := by
  rcases h with ⟨hd, -⟩ | ⟨-, hd, -⟩
  · omega
  · exact hd

/-- A digit is added behind the others. -/
theorem hexStep_digit (h : HexDigit c d) (hv : v < 2 ^ 28) : hexStep v c = v * 16 + d := by
  have hor : v * 16 ||| d = v * 16 + d := by
    have := Nat.shiftLeft_add_eq_or_of_lt (show d < 2 ^ 4 from h.lt) v
    rw [Nat.shiftLeft_eq] at this
    exact this.symm
  have hmod : v * 16 % 2 ^ 32 = v * 16 := Nat.mod_eq_of_lt (by omega)
  rw [← hor]
  unfold hexStep
  rw [hmod]
  rcases h with ⟨hd, hc⟩ | ⟨hd, hd', hc | hc⟩
  · rw [if_pos (by omega), hc, Nat.add_sub_cancel_left]
  · rw [if_neg (by omega), if_pos (by omega)]
    congr 1
    omega
  · rw [if_neg (by omega), if_neg (by omega), if_pos (by omega)]
    congr 1
    omega

/-- Up to eight digits in all are read without loss. -/
theorem foldl_hexStep {k : Nat} (h : List.Forall₂ HexDigit cs ds) (hv : v < 16 ^ k)
    (hk : k + cs.length ≤ 8) : cs.foldl hexStep v = ds.foldl (fun v d => v * 16 + d) v ∧
      cs.foldl hexStep v < 16 ^ (k + cs.length) := by
  induction h generalizing v k with
  | nil => exact ⟨rfl, hv⟩
  | @cons c d cs ds hc _ ih =>
    rw [length_cons, Nat.add_comm cs.length, ← Nat.add_assoc] at hk ⊢
    have hsmall : 16 ^ k ≤ 16 ^ 7 := Nat.pow_le_pow_right (by decide) (by omega)
    rw [foldl_cons, foldl_cons, hexStep_digit hc (by omega)]
    refine ih (k := k + 1) ?_ (by omega)
    have := hc.lt
    rw [Nat.pow_succ]
    omega

theorem length_bytesAt (mem : Bytes) (a n : Nat) : (bytesAt mem a n).length = n := by
  simp [bytesAt]

/-- `parse_hex_str` reads a field. -/
theorem parseHexStr_field (h : Field mem a v) : parseHexStr (bytesAt mem a 8) = v := by
  obtain ⟨ds, hds, rfl⟩ := h
  exact (foldl_hexStep (k := 0) hds (by decide) (by rw [length_bytesAt])).1

theorem Field.lt (h : Field mem a v) : v < 2 ^ 32 := by
  obtain ⟨ds, hds, rfl⟩ := h
  obtain ⟨heq, hlt⟩ := foldl_hexStep (v := 0) (k := 0) hds (by decide) (by rw [length_bytesAt])
  rw [heq, length_bytesAt] at hlt
  exact hlt

/-! ## Strings -/

theorem bytesAt_succ (mem : Bytes) (a n : Nat) :
    bytesAt mem a (n + 1) = mem a :: bytesAt mem (a + 1) n := by
  unfold bytesAt
  rw [range_succ_eq_map, map_cons, map_map]
  congr 1
  refine map_congr_left fun i _ => ?_
  rw [Function.comp_apply]
  congr 1
  omega

/-- A string is read up to its `NUL`. -/
theorem cString_eq (h : bytesAt mem a (name.length + 1) = name ++ [0#8]) (hnul : 0#8 ∉ name)
    (hn : name.length < n) : cString mem a n = name := by
  induction name generalizing a n with
  | nil =>
    cases n with
    | zero => cases hn
    | succ n =>
      rw [length_nil, bytesAt_succ] at h
      have ha : mem a = 0#8 := by simpa [bytesAt] using h
      simp [cString, ha]
  | cons b name ih =>
    cases n with
    | zero => cases hn
    | succ n =>
      rw [length_cons, bytesAt_succ, cons_append, cons.injEq] at h
      have hb : b ≠ 0#8 := fun hc => hnul (hc ▸ mem_cons_self)
      rw [cString, h.1, if_neg hb, ih h.2 (fun hc => hnul (mem_cons_of_mem b hc))
        (Nat.lt_of_succ_lt_succ hn)]

/-- What does not start like the trailer is not taken for it. -/
theorem not_trailer (h : bytesAt mem a (name.length + 1) = name ++ [0#8])
    (hname : ¬trailer <+: name) : bytesAt mem a 10 ≠ trailer := by
  intro heq
  have hbyte : ∀ i (hi : i < 10), mem (a + i) = trailer.get ⟨i, hi⟩ := by
    intro i hi
    have hget : (bytesAt mem a 10)[i]? = trailer[i]? := by rw [heq]
    have hlen : i < trailer.length := hi
    rw [getElem?_eq_getElem hlen] at hget
    simpa [bytesAt, hi] using hget
  have hstr : ∀ i, i ≤ name.length → (name ++ [0#8])[i]? = some (mem (a + i)) := by
    intro i hi
    rw [← h]
    simp [bytesAt, Nat.lt_succ_of_le hi]
  rcases Nat.lt_or_ge name.length 10 with hlt | hge
  · have hend := hstr name.length (Nat.le_refl _)
    rw [getElem?_append_right (Nat.le_refl _), Nat.sub_self, hbyte _ hlt] at hend
    have hnul : ∀ i (hi : i < 10), trailer.get ⟨i, hi⟩ ≠ 0#8 := by decide
    exact hnul _ hlt (Option.some.inj hend).symm
  · refine hname (prefix_iff_eq_take.mpr (ext_getElem? fun i => ?_))
    rw [show trailer.length = 10 from rfl, getElem?_take]
    split
    next hi =>
      have hin := hstr i (by omega)
      rw [getElem?_append_left (by omega), hbyte i hi] at hin
      rw [hin]
      exact getElem?_eq_getElem hi
    next hi => exact getElem?_eq_none (Nat.le_of_not_lt hi)

theorem leafFrom_leaf (hc : slash ∉ name) : leafFrom leaf name = leaf := by
  induction name with
  | nil => rfl
  | cons b name ih =>
    have hb : b ≠ slash := fun hs => hc (hs ▸ mem_cons_self)
    rw [leafFrom, if_neg hb, ih fun hs => hc (mem_cons_of_mem b hs)]

theorem leafFrom_slash (hc : slash ∉ name) : leafFrom leaf (name ++ slash :: r) = leafName r := by
  induction name with
  | nil => simp [leafFrom, leafName]
  | cons b name ih =>
    have hb : b ≠ slash := fun hs => hc (hs ▸ mem_cons_self)
    rw [cons_append, leafFrom, if_neg hb, ih fun hs => hc (mem_cons_of_mem b hs)]

/-- The last segment is found. -/
theorem leafName_join {path : List (List Byte)} (hpath : ∀ c ∈ path, slash ∉ c)
    (hleaf : slash ∉ leaf) : leafName (joinPath (path ++ [leaf])) = leaf := by
  induction path with
  | nil => exact leafFrom_leaf hleaf
  | cons c path ih =>
    rw [cons_append, joinPath_snoc]
    unfold leafName
    rw [leafFrom_slash (hpath c mem_cons_self)]
    exact ih fun d hd => hpath d (mem_cons_of_mem c hd)

theorem stripDot_join {path : List (List Byte)} (hslash : ∀ c ∈ path, slash ∉ c)
    (hdot : ∀ c ∈ path, c ≠ [dot]) (hnil : ∀ c ∈ path, c ≠ []) :
    stripDot (joinPath path) = joinPath path := by
  cases path with
  | nil => rfl
  | cons c path =>
    obtain ⟨r, hjoin, hends, -⟩ := joinPath_cons c path
    have hc := hslash c mem_cons_self
    have hne := hdot c mem_cons_self
    rw [hjoin]
    rcases c with _ | ⟨b, _ | ⟨b', c⟩⟩
    · exact absurd rfl (hnil [] mem_cons_self)
    · rcases hends with rfl | ⟨t, rfl⟩
      · rfl
      · refine if_neg fun hb => hne ?_
        rw [hb.1]
    · refine if_neg fun hb => hc ?_
      rw [hb.2]
      exact mem_cons_of_mem b mem_cons_self

/-- The path is what is left of the name. -/
theorem Entry.stripDot_name {e : Entry} (hseg : ∀ c ∈ e.path, Segment c ∧ c ≠ [dot]) :
    stripDot e.name = joinPath e.path := by
  unfold Entry.name
  split
  · rw [cons_append, cons_append, stripDot, if_pos ⟨rfl, rfl⟩, nil_append]
  · exact stripDot_join (fun c hc => (hseg c hc).1.slash) (fun c hc => (hseg c hc).2)
      fun c hc => (hseg c hc).1.ne_nil

theorem joinPath_ne_dot {path : List (List Byte)} (hpath : path ≠ [])
    (hnil : ∀ c ∈ path, c ≠ []) (hdot : ∀ c ∈ path, c ≠ [dot]) : joinPath path ≠ [dot] := by
  cases path with
  | nil => exact absurd rfl hpath
  | cons c path =>
    obtain ⟨r, hjoin, hends, -⟩ := joinPath_cons c path
    rw [hjoin]
    intro heq
    rcases append_eq_singleton_iff.mp heq with ⟨hc, -⟩ | ⟨hc, -⟩
    · exact hnil c mem_cons_self hc
    · exact hdot c mem_cons_self hc

theorem nul_joinPath {path : List (List Byte)} (hpath : ∀ c ∈ path, 0#8 ∉ c) :
    0#8 ∉ joinPath path := by
  induction path with
  | nil => exact not_mem_nil
  | cons c path ih =>
    obtain ⟨r, hjoin, hends, htail⟩ := joinPath_cons c path
    have hrest := ih fun d hd => hpath d (mem_cons_of_mem c hd)
    rw [hjoin, mem_append, not_or]
    refine ⟨hpath c mem_cons_self, ?_⟩
    rcases hends with rfl | ⟨t, rfl⟩
    · exact not_mem_nil
    · rw [tail_cons] at htail
      rw [mem_cons, not_or, htail]
      exact ⟨by decide, hrest⟩

theorem Entry.nul_name {e : Entry} (hseg : ∀ c ∈ e.path, Segment c) : 0#8 ∉ e.name := by
  unfold Entry.name
  rw [mem_append, not_or]
  refine ⟨?_, nul_joinPath fun c hc => (hseg c hc).nul⟩
  split
  · decide
  · exact not_mem_nil

end

/-! ## The nodes of one entry -/

section

variable {s : Vfs} {kids : Nat → List Nat} {T : List (List Byte) → Option Item}
  {leaf : List Byte} {path : List (List Byte)}

theorem withDirs_snoc (T : List (List Byte) → Option Item) (path : List (List Byte))
    (leaf : List Byte) : withDirs T path (path ++ [leaf]) = T (path ++ [leaf]) := by
  refine if_neg fun hc => ?_
  have := hc.2.length_le
  simp at this

def item (dir : Bool) (size data : Nat) : Item := if dir then .directory else .file size data

/-- The tree after an entry: its directories are there, and its item. -/
def withEntry (T : List (List Byte) → Option Item) (path : List (List Byte)) (x : Item)
    (p : List (List Byte)) : Option Item :=
  if p = path then some x else withDirs T path.dropLast p

/-- The entry is added where nothing is, or where a directory is that it names. -/
theorem Shows.addEntry {dir : Bool} {mode size data : Nat} (h : Shows s kids T)
    (hpath : ∀ c ∈ path ++ [leaf], Segment c ∧ c.length ≤ 127)
    (hmode : mode &&& 0xF000 = if dir then 0x4000 else 0x8000)
    (hfree : T (path ++ [leaf]) = none ∨ (dir = true ∧ T (path ++ [leaf]) = some .directory)) :
    ∃ s' kids', s.addEntry (joinPath (path ++ [leaf])) mode size data = some s' ∧
      Shows s' kids' (withEntry T (path ++ [leaf]) (item dir size data)) := by
  have hleaf := hpath leaf (by simp)
  have hdirs : ∀ c ∈ path, Segment c ∧ c.length ≤ 127 := fun c hc =>
    hpath c (mem_append_left _ hc)
  obtain ⟨s₁, kids₁, n, heq, h₁, hn⟩ :=
    h.createDirectories (q := []) lookup_nil hdirs hleaf.1.slash
  rw [nil_append] at h₁ hn
  have hname : leafName (joinPath (path ++ [leaf])) = leaf :=
    leafName_join (fun c hc => (hdirs c hc).1.slash) hleaf.1.slash
  have hfind : s₁.vfsFindNode n leaf = some (lookup kids₁ s₁.nameOf n [leaf]) :=
    h₁.find (p := [leaf]) (h₁.lookup_lt hn) (by simpa using hleaf.1)
  have hthere := h₁.items (path ++ [leaf])
  rw [Lib.lookup_append, hn, Option.bind_some, withDirs_snoc] at hthere
  -- the node `x` is added below the directory
  have hadd : ∀ {x : Node}, x.name = leaf → x.children = none → x.item = item dir size data →
      T (path ++ [leaf]) = none → ∀ {s'}, Added s₁ n x s' →
      ∃ kids', Shows s' kids' (withEntry T (path ++ [leaf]) (item dir size data)) := by
    intro x hx hchildren hitem hnone s' ha
    have hfree₁ : withDirs T path (path ++ [x.name]) = none := by
      rw [hx, withDirs_snoc, hnone]
    obtain ⟨h', -⟩ := h₁.add ha hn hfree₁ (hx ▸ hleaf.1.nul) hchildren
    rw [hx, hitem] at h'
    refine ⟨addKid kids₁ n s₁.fresh, ?_⟩
    unfold withEntry
    rw [dropLast_concat]
    exact h'
  unfold Vfs.addEntry
  rw [heq]
  dsimp only
  rw [hname, hmode]
  cases dir with
  | true =>
    rw [if_pos (if_pos rfl), hfind]
    cases hk : lookup kids₁ s₁.nameOf n [leaf] with
    | some k =>
      refine ⟨s₁, kids₁, rfl, ?_⟩
      rw [hk, Option.map_some] at hthere
      have hdir : T (path ++ [leaf]) = some .directory := by
        rcases hfree with hnone | ⟨-, hdir⟩
        · rw [hnone] at hthere
          cases hthere
        · exact hdir
      have hsame : withEntry T (path ++ [leaf]) (item true size data) = withDirs T path := by
        funext p
        unfold withEntry
        rw [dropLast_concat]
        split
        next hp =>
          rw [hp, withDirs_snoc, hdir]
          rfl
        · rfl
      rw [hsame]
      exact h₁
    | none =>
      rw [hk] at hthere
      dsimp only
      rw [vfsCreateNode_eq s₁ hleaf.1 hleaf.2]
      obtain ⟨kids', h'⟩ := hadd (x := ⟨leaf, .directory, 0, 0, none, none, none⟩) rfl rfl rfl
        hthere.symm (added_vfsAddChild (h₁.lookup_lt hn) _)
      exact ⟨_, kids', rfl, h'⟩
  | false =>
    have hnone : T (path ++ [leaf]) = none := by
      rcases hfree with hnone | ⟨hc, -⟩
      · exact hnone
      · cases hc
    rw [if_neg (by decide), if_pos (if_neg (by decide)), vfsCreateNode_eq s₁ hleaf.1 hleaf.2]
    obtain ⟨kids', h'⟩ := hadd (x := ⟨leaf, .file, size, data, none, none, none⟩) rfl rfl rfl
      hnone (added_vfsAddChild (h₁.lookup_lt hn) _)
    refine ⟨_, kids', ?_, h'⟩
    unfold Vfs.modify
    simp

theorem Shows.addEntry_path {dir : Bool} {mode : Nat} (h : Shows s kids T) (hne : path ≠ [])
    (hpath : ∀ c ∈ path, Segment c ∧ c.length ≤ 127)
    (hmode : mode &&& 0xF000 = if dir then 0x4000 else 0x8000)
    (hfree : T path = none ∨ (dir = true ∧ T path = some .directory)) (size data : Nat) :
    ∃ s' kids', s.addEntry (joinPath path) mode size data = some s' ∧
      Shows s' kids' (withEntry T path (item dir size data)) := by
  rw [← dropLast_append_getLast hne] at hpath hfree ⊢
  exact h.addEntry hpath hmode hfree

end

/-! ## What an archive says -/

section

variable {mem : Bytes} {base size o : Nat} {e : Entry} {es rest : List Entry}
  {T : List (List Byte) → Option Item} {done : List (Entry × Nat)} {p : List (List Byte)}

/-- The entries with the offsets of their headers. -/
def placed : List Entry → Nat → List (Entry × Nat)
  | [], _ => []
  | e :: es, o => (e, o) :: placed es (e.next o)

theorem map_placed (es : List Entry) (o : Nat) : (placed es o).map Prod.fst = es := by
  induction es generalizing o with
  | nil => rfl
  | cons e es ih => rw [placed, map_cons, ih]

/-- What the entry is in an archive at `base`. -/
def Entry.item (e : Entry) (base o : Nat) : Item :=
  Fs.item e.dir e.content.length (base + e.dataAt o)

/-- The tree is that of the entries: their items, the directories on the way to them, and
nothing else. -/
structure Meaning (base : Nat) (done : List (Entry × Nat))
    (T : List (List Byte) → Option Item) : Prop where
  root : T [] = some .directory
  items : ∀ x ∈ done, T x.1.path = some (x.1.item base x.2)
  directory : ∀ x ∈ done, ∀ {p}, p <+: x.1.path → p ≠ x.1.path → T p = some .directory
  only : ∀ {p}, T p ≠ none → p = [] ∨ ∃ x ∈ done, p <+: x.1.path

theorem WellFormed.ne (h : WellFormed (done.map Prod.fst ++ e :: rest)) {x : Entry × Nat}
    (hx : x ∈ done) : x.1.path ≠ e.path := by
  have hd := h.distinct
  rw [map_append, map_cons, nodup_append] at hd
  exact hd.2.2 _ (mem_map_of_mem (mem_map_of_mem hx)) _ mem_cons_self

/-- Where the next entry goes there is nothing, or a directory that it names. -/
theorem Meaning.free (h : Meaning base done T) (hwf : WellFormed (done.map Prod.fst ++ e :: rest)) :
    T e.path = none ∨ (e.dir = true ∧ T e.path = some .directory) := by
  by_cases hnone : T e.path = none
  · exact .inl hnone
  · have hmem : e ∈ done.map Prod.fst ++ e :: rest := by simp
    rcases h.only hnone with hnil | ⟨x, hx, hpre⟩
    · exact absurd hnil (hwf.path e hmem)
    · have hne := (hwf.ne hx).symm
      refine .inr ⟨?_, h.directory x hx hpre hne⟩
      cases hdir : e.dir with
      | true => rfl
      | false =>
        have hx' : x.1 ∈ done.map Prod.fst ++ e :: rest :=
          mem_append_left _ (mem_map_of_mem hx)
        exact absurd (hwf.leaf e hmem hdir x.1 hx' hpre) hne

/-- What stands on the way to the next entry is a directory. -/
theorem Meaning.way (h : Meaning base done T) (hwf : WellFormed (done.map Prod.fst ++ e :: rest))
    (hp : p <+: e.path) (hne : p ≠ e.path) (hthere : T p ≠ none) : T p = some .directory := by
  have hmem : e ∈ done.map Prod.fst ++ e :: rest := by simp
  rcases h.only hthere with rfl | ⟨x, hx, hpre⟩
  · exact h.root
  · by_cases heq : p = x.1.path
    · have hitem := h.items x hx
      rw [← heq] at hitem
      cases hdir : x.1.dir with
      | true =>
        rw [hitem, Entry.item, hdir]
        rfl
      | false =>
        have hx' : x.1 ∈ done.map Prod.fst ++ e :: rest :=
          mem_append_left _ (mem_map_of_mem hx)
        have := hwf.leaf x.1 hx' hdir e hmem (heq ▸ hp)
        exact absurd (heq.trans this) hne
    · exact h.directory x hx hpre heq

theorem prefix_dropLast {q : List (List Byte)} (hp : p <+: q) (hne : p ≠ q) :
    p <+: q.dropLast := by
  obtain ⟨t, rfl⟩ := hp
  cases t with
  | nil => simp at hne
  | cons c t =>
    rw [dropLast_append_of_ne_nil (by simp)]
    exact prefix_append p _

/-- An entry extends what the archive says. -/
theorem Meaning.entry (h : Meaning base done T)
    (hwf : WellFormed (done.map Prod.fst ++ e :: rest)) :
    Meaning base (done ++ [(e, o)]) (withEntry T e.path (e.item base o)) := by
  have hmem : e ∈ done.map Prod.fst ++ e :: rest := by simp
  have hother : ∀ {p}, p ≠ e.path → T p ≠ none →
      withEntry T e.path (e.item base o) p = T p := by
    intro p hne hthere
    unfold withEntry withDirs
    rw [if_neg hne, if_neg fun hc => hthere hc.1]
  -- a directory stays one, also where the entry names it
  have hdirs : ∀ {p}, T p = some .directory →
      withEntry T e.path (e.item base o) p = some .directory := by
    intro p hdir
    by_cases hp : p = e.path
    · rcases h.free hwf with hnone | ⟨he, -⟩
      · rw [← hp, hdir] at hnone
        cases hnone
      · unfold withEntry Entry.item
        rw [if_pos hp, he]
        rfl
    · rw [hother hp (by rw [hdir]; simp), hdir]
  refine ⟨hdirs h.root, ?_, ?_, ?_⟩
  · intro x hx
    rcases mem_append.mp hx with hx | hx
    · have hitem := h.items x hx
      rw [hother (hwf.ne hx) (by rw [hitem]; simp), hitem]
    · obtain rfl := mem_singleton.mp hx
      exact if_pos rfl
  · intro x hx p hpre hne
    rcases mem_append.mp hx with hx | hx
    · exact hdirs (h.directory x hx hpre hne)
    · obtain rfl := mem_singleton.mp hx
      by_cases hthere : T p = none
      · unfold withEntry withDirs
        rw [if_neg hne, if_pos ⟨hthere, prefix_dropLast hpre hne⟩]
      · exact hdirs (h.way hwf hpre hne hthere)
  · intro p hthere
    unfold withEntry withDirs at hthere
    split at hthere
    next hp => exact .inr ⟨(e, o), by simp, hp ▸ prefix_refl _⟩
    · split at hthere
      next hc =>
        exact .inr ⟨(e, o), by simp, hc.2.trans ( dropLast_prefix _)⟩
      · rcases h.only hthere with hp | ⟨x, hx, hpre⟩
        · exact .inl hp
        · exact .inr ⟨x, mem_append_left _ hx, hpre⟩

end

/-! ## The whole archive -/

section

variable {mem : Bytes} {base size o n fuel : Nat} {e : Entry} {es rest : List Entry} {s : Vfs}
  {kids : Nat → List Nat} {T : List (List Byte) → Option Item} {done : List (Entry × Nat)}
  {p : List (List Byte)}

theorem le_pad (n : Nat) : n ≤ pad n := by
  unfold pad
  omega

/-- Addresses are rounded like offsets, since the archive is aligned. -/
theorem align4_add (hbase : base % 4 = 0) (h : base + pad n < 2 ^ 64) :
    align4 (base + n) = base + pad n := by
  unfold align4 pad at *
  omega

theorem Entry.dataAt_lt (e : Entry) (o : Nat) : o + 110 + e.name.length < e.dataAt o := by
  have := le_pad (o + 110 + (e.name.length + 1))
  unfold Entry.dataAt
  omega

theorem Entry.dataAt_le (e : Entry) (o : Nat) : e.dataAt o ≤ e.next o := by
  have := le_pad (e.dataAt o + e.content.length)
  unfold Entry.next
  omega

/-- An archive has room for a header of each entry and for the trailer. -/
theorem ArchiveAt.room (h : ArchiveAt mem base size es o) : o + es.length + 120 ≤ size := by
  induction es generalizing o with
  | nil => exact h.1
  | cons e es ih =>
    have hrest := ih h.2
    have hdata := e.dataAt_lt o
    have hnext := e.dataAt_le o
    rw [length_cons]
    omega

/-- The magic number of a header is accepted. -/
theorem MagicAt.accepted {a : Nat} (h : MagicAt mem a) :
    ¬(bytesAt mem a 6 ≠ magicNewc ∧ bytesAt mem a 6 ≠ magicCrc) := by
  rintro ⟨hnewc, hcrc⟩
  rcases h with h | h
  · exact hnewc h
  · exact hcrc h

/-- The loop breaks at the trailer. -/
theorem initramfsTurn_trailer (h : ArchiveAt mem base size [] o) :
    initramfsTurn mem (base + size) (base + o) s = some (none, s) := by
  obtain ⟨-, hmagic, htrailer⟩ := h
  unfold initramfsTurn
  rw [if_neg hmagic.accepted]
  exact if_pos htrailer

/-- One turn of the loop adds an entry and goes to the next header. -/
theorem initramfsTurn_entry (hbase : base % 4 = 0) (hend : base + size < 2 ^ 64)
    (he : EntryAt mem base o e) (hroom : e.next o < size) (hpath : e.path ≠ [])
    (hseg : ∀ c ∈ e.path, Segment c ∧ c ≠ [dot]) (htrailer : ¬trailer <+: e.name) :
    ∃ mode, (mode &&& 0xF000 = if e.dir then 0x4000 else 0x8000) ∧
      initramfsTurn mem (base + size) (base + o) s =
        (s.addEntry (joinPath e.path) mode e.content.length (base + e.dataAt o)).map
          fun s => (some (base + e.next o), s) := by
  obtain ⟨mode, hfield, hkind⟩ := he.mode
  refine ⟨mode, hkind, ?_⟩
  have hdata := e.dataAt_lt o
  have hnext := e.dataAt_le o
  have hdataAddr : align4 (base + o + 110 + (e.name.length + 1)) = base + e.dataAt o := by
    rw [Nat.add_assoc base o, Nat.add_assoc base]
    exact align4_add hbase (by unfold Entry.dataAt at hnext; omega)
  have hnextAddr : align4 (base + e.dataAt o + e.content.length) = base + e.next o := by
    rw [Nat.add_assoc base]
    exact align4_add hbase (by unfold Entry.next at hroom; omega)
  have hname : cString mem (base + o + 110) (base + size - (base + o + 110)) = e.name :=
    cString_eq he.name (Entry.nul_name fun c hc => (hseg c hc).1) (by omega)
  have hnotDot : joinPath e.path ≠ [dot] :=
    joinPath_ne_dot hpath (fun c hc => (hseg c hc).1.ne_nil) fun c hc => (hseg c hc).2
  unfold initramfsTurn
  rw [if_neg he.magic.accepted]
  dsimp only
  rw [if_neg (not_trailer he.name htrailer), parseHexStr_field hfield,
    parseHexStr_field he.filesize, parseHexStr_field he.namesize, hdataAddr, hnextAddr, hname,
    Entry.stripDot_name hseg, if_neg hnotDot]

/-- The loop reads the rest of the archive. -/
theorem initramfsLoop_spec (hbase : base % 4 = 0) (hend : base + size < 2 ^ 64)
    (harch : ArchiveAt mem base size rest o) (hwf : WellFormed (done.map Prod.fst ++ rest))
    (hshows : Shows s kids T) (hmeaning : Meaning base done T) (hfuel : rest.length < fuel) :
    ∃ s' kids' T', initramfsLoop mem (base + size) fuel (base + o) s = some s' ∧
      Shows s' kids' T' ∧ Meaning base (done ++ placed rest o) T' := by
  induction rest generalizing fuel o s kids T done with
  | nil =>
    obtain ⟨fuel, rfl⟩ : ∃ k, fuel = k + 1 := ⟨fuel - 1, by omega⟩
    refine ⟨s, kids, T, ?_, hshows, ?_⟩
    · rw [initramfsLoop, if_pos (by have := harch.1; omega), initramfsTurn_trailer harch]
    · rw [placed, append_nil]
      exact hmeaning
  | cons e rest ih =>
    obtain ⟨fuel, rfl⟩ : ∃ k, fuel = k + 1 := ⟨fuel - 1, by omega⟩
    have hmem : e ∈ done.map Prod.fst ++ e :: rest := by simp
    have hseg := hwf.segment e hmem
    have hpath := hwf.path e hmem
    have hroom := harch.2.room
    have hnext := (e.dataAt_lt o).trans_le (e.dataAt_le o)
    obtain ⟨mode, hkind, hturn⟩ := initramfsTurn_entry (s := s) hbase hend harch.1 (by omega)
      hpath (fun c hc => ⟨(hseg c hc).1, (hseg c hc).2.2⟩) (hwf.trailer e hmem)
    obtain ⟨s₁, kids₁, heq, hshows₁⟩ := hshows.addEntry_path hpath
      (fun c hc => ⟨(hseg c hc).1, (hseg c hc).2.1⟩) hkind (hmeaning.free hwf)
      e.content.length (base + e.dataAt o)
    have hwf₁ : WellFormed ((done ++ [(e, o)]).map Prod.fst ++ rest) := by
      simpa using hwf
    obtain ⟨s', kids', T', hloop, hshows', hmeaning'⟩ := ih harch.2 hwf₁ hshows₁
      (hmeaning.entry hwf) (Nat.lt_of_succ_lt_succ hfuel)
    refine ⟨s', kids', T', ?_, hshows', ?_⟩
    · rw [initramfsLoop, if_pos (by omega), hturn, heq]
      exact hloop
    · rw [append_assoc] at hmeaning'
      exact hmeaning'

theorem EntryAt.of_placed {x : Entry × Nat} (h : ArchiveAt mem base size es o)
    (hx : x ∈ placed es o) : EntryAt mem base x.2 x.1 := by
  induction es generalizing o with
  | nil => cases hx
  | cons e es ih =>
    rcases mem_cons.mp hx with rfl | hx
    · exact h.1
    · exact ih h.2 hx

/-- `init_vfs` leaves an empty root. -/
theorem shows_initVfs :
    Shows initVfs (fun _ => []) (fun p => if p = [] then some .directory else none) := by
  refine ⟨fun n hn => ?_, ?_, ?_, ⟨?_, ?_, ?_⟩, by decide, fun p => ?_⟩
  · obtain rfl : n = 0 := Nat.lt_one_iff.mp hn
    exact chain_nil.mpr rfl
  · simp
  · simp
  · simp
  · simp
  · simp
  · cases p with
    | nil => rfl
    | cons c p => rfl

/-- The path is found at this node, and no other node is there. -/
def Found (s : Vfs) (p : List (List Byte)) (n : Nat) : Prop :=
  s.vfsFindNode s.root (joinPath p) = some (some n) ∧ ∀ k, AtPath s s.root p k ↔ k = n

/-- Nothing is found at the path, and no node is there. -/
def NotFound (s : Vfs) (p : List (List Byte)) : Prop :=
  s.vfsFindNode s.root (joinPath p) = some none ∧ ∀ k, ¬AtPath s s.root p k

theorem Shows.found {x : Item} (h : Shows s kids T) (hp : ∀ c ∈ p, Segment c)
    (hx : T p = some x) : ∃ n, Found s p n ∧ (s.nodes n).item = x := by
  have hitem := h.items p
  rw [hx, Option.map_eq_some_iff] at hitem
  obtain ⟨n, hn, hitem⟩ := hitem
  refine ⟨n, ⟨?_, fun k => ?_⟩, hitem⟩
  · rw [h.find h.rootLt hp, hn]
  · rw [h.atPath h.rootLt, hn, Option.some.injEq]
    exact eq_comm

theorem Shows.notFound (h : Shows s kids T) (hp : ∀ c ∈ p, Segment c) (hx : T p = none) :
    NotFound s p := by
  have hitem := h.items p
  rw [hx, Option.map_eq_none_iff] at hitem
  refine ⟨?_, fun k hk => ?_⟩
  · rw [h.find h.rootLt hp, hitem]
  · rw [h.atPath h.rootLt, hitem] at hk
    cases hk

theorem item_file {x : Node} {size data : Nat} (h : x.item = item false size data) :
    x.type = .file ∧ x.size = size ∧ x.data = data := by
  unfold Node.item item at h
  split at h
  · cases h
  next htype =>
    cases h
    exact ⟨htype, rfl, rfl⟩

theorem item_directory {x : Node} (h : x.item = .directory) : x.type = .directory := by
  unfold Node.item at h
  split at h
  next htype => exact htype
  · cases h

/-- The tree of the archive is built. -/
theorem initramfsInit_spec (hbase : base % 4 = 0) (hend : base + size < 2 ^ 64)
    (hwf : WellFormed es) (harch : ArchiveAt mem base size es 0) :
    ∃ s kids T, initramfsInit mem base size = some s ∧ Shows s kids T ∧
      Meaning base (placed es 0) T := by
  have hroom := harch.room
  have hmeaning : Meaning base [] (fun p => if p = [] then some .directory else none) := by
    refine ⟨rfl, by simp, by simp, fun {p} hp => .inl ?_⟩
    by_contra hne
    exact hp (if_neg hne)
  have hwf' : WellFormed (([] : List (Entry × Nat)).map Prod.fst ++ es) := hwf
  obtain ⟨s, kids, T, hloop, hshows, hmeaning⟩ := initramfsLoop_spec hbase hend harch hwf'
    shows_initVfs hmeaning (show es.length < size + 1 by omega)
  refine ⟨s, kids, T, ?_, hshows, hmeaning⟩
  unfold initramfsInit
  rw [Nat.mod_eq_of_lt hend]
  exact hloop

theorem mem_of_placed (hx : (e, o) ∈ placed es n) : e ∈ es := by
  have := mem_map_of_mem (f := Prod.fst) hx
  rwa [map_placed] at this

theorem exists_placed (he : e ∈ es) : ∃ o, (e, o) ∈ placed es 0 := by
  rw [← map_placed es 0, mem_map] at he
  obtain ⟨⟨e, o⟩, hx, rfl⟩ := he
  exact ⟨o, hx⟩

/-- A file of the archive is found with its contents. -/
theorem Shows.found_file (h : Shows s kids T) (hmeaning : Meaning base (placed es 0) T)
    (hwf : WellFormed es) (harch : ArchiveAt mem base size es 0) (hx : (e, o) ∈ placed es 0)
    (hfile : e.dir = false) :
    ∃ n, Found s e.path n ∧ (s.nodes n).type = .file ∧
      (s.nodes n).size = e.content.length ∧ (s.nodes n).data = base + e.dataAt o ∧
      bytesAt mem (s.nodes n).data (s.nodes n).size = e.content := by
  have hitem := hmeaning.items (e, o) hx
  rw [Entry.item, hfile] at hitem
  obtain ⟨n, hn, hitem⟩ := h.found (fun c hc => (hwf.segment e (mem_of_placed hx) c hc).1) hitem
  obtain ⟨htype, hsize, hdata⟩ := item_file hitem
  refine ⟨n, hn, htype, hsize, hdata, ?_⟩
  rw [hsize, hdata]
  exact (EntryAt.of_placed harch hx).content

/-- Reading an archive back: every file is found with its contents, every directory that is listed
or that a listed path goes through is found, each at one node, and nothing else is. -/
theorem initramfs_round_trip (hbase : base % 4 = 0) (hend : base + size < 2 ^ 64)
    (hwf : WellFormed es) (harch : ArchiveAt mem base size es 0) :
    ∃ s, initramfsInit mem base size = some s ∧
      (∀ e o, (e, o) ∈ placed es 0 → e.dir = false →
        ∃ n, Found s e.path n ∧ (s.nodes n).type = .file ∧
          (s.nodes n).size = e.content.length ∧ (s.nodes n).data = base + e.dataAt o ∧
          bytesAt mem (s.nodes n).data (s.nodes n).size = e.content) ∧
      (∀ e ∈ es, ∀ p, p <+: e.path → (p = e.path → e.dir = true) →
        ∃ n, Found s p n ∧ (s.nodes n).type = .directory) ∧
      ∀ p, p ≠ [] → (∀ c ∈ p, Segment c) → (∀ e ∈ es, ¬p <+: e.path) → NotFound s p := by
  obtain ⟨s, kids, T, hinit, hshows, hmeaning⟩ := initramfsInit_spec hbase hend hwf harch
  refine ⟨s, hinit, fun e o => hshows.found_file hmeaning hwf harch, ?_, ?_⟩
  · intro e he p hpre hdir
    obtain ⟨o, hx⟩ := exists_placed he
    have hthere : T p = some .directory := by
      by_cases hp : p = e.path
      · have hitem := hmeaning.items (e, o) hx
        rw [Entry.item, hdir hp] at hitem
        rw [hp]
        exact hitem
      · exact hmeaning.directory (e, o) hx hpre hp
    obtain ⟨n, hn, hitem⟩ :=
      hshows.found (fun c hc => (hwf.segment e he c (hpre.mem hc)).1) hthere
    exact ⟨n, hn, item_directory hitem⟩
  · intro p hne hp hnone
    refine hshows.notFound hp ?_
    by_contra hthere
    rcases hmeaning.only hthere with hnil | ⟨x, hx, hpre⟩
    · exact hne hnil
    · exact hnone x.1 (mem_of_placed hx) hpre

end

/-- A header with these last digits of the mode, the size and the length of the name. -/
def smallHeader (mode : List Byte) (size name : Byte) : List Byte :=
  magicNewc ++ replicate 12 0x30#8 ++ mode ++ replicate 39 0x30#8 ++ [size] ++
  replicate 39 0x30#8 ++ [name] ++ replicate 8 0x30#8

/-- The directory `d`, the file `a/b` with one byte, and the trailer. -/
def smallArchive : List Byte :=
  smallHeader [0x34#8, 0x31#8, 0x65#8, 0x64#8] 0x30#8 0x32#8 ++ [0x64#8, 0#8] ++
  smallHeader [0x38#8, 0x31#8, 0x61#8, 0x34#8] 0x31#8 0x34#8 ++
  [0x61#8, slash, 0x62#8, 0#8, 0#8, 0#8] ++ [0x41#8, 0#8, 0#8, 0#8] ++
  magicNewc ++ replicate 104 0x30#8 ++ trailer

def smallDir : Entry := ⟨true, false, [[0x64#8]], []⟩

def smallFile : Entry := ⟨false, false, [[0x61#8], [0x62#8]], [0x41#8]⟩

theorem wellFormed_small : WellFormed [smallDir, smallFile] := by
  have hsegment : ∀ c : Byte, c ≠ slash → c ≠ 0#8 → c ≠ dot →
      Segment [c] ∧ [c].length ≤ 127 ∧ [c] ≠ [dot] := by
    intro c hslash hnul hdot
    exact ⟨⟨by simp, by simpa using hslash.symm, by simpa using hnul.symm⟩, by simp, by simpa⟩
  refine ⟨by decide, ?_, by decide, by decide, by decide⟩
  simp only [smallDir, smallFile, forall_mem_cons, not_mem_nil, false_implies, implies_true,
    and_true]
  exact ⟨hsegment _ (by decide) (by decide) (by decide),
    hsegment _ (by decide) (by decide) (by decide), hsegment _ (by decide) (by decide) (by decide)⟩

theorem archiveAt_small :
    ArchiveAt (fun i => smallArchive.getD i 0#8) 0 352 [smallDir, smallFile] 0 := by
  refine ⟨⟨.inl (by decide), ⟨0x41ed, ⟨[0, 0, 0, 0, 4, 1, 14, 13], by decide, by decide⟩,
    by decide⟩, ⟨[0, 0, 0, 0, 0, 0, 0, 0], by decide, by decide⟩,
    ⟨[0, 0, 0, 0, 0, 0, 0, 2], by decide, by decide⟩, by decide, by decide⟩,
    ⟨.inl (by decide), ⟨0x81a4, ⟨[0, 0, 0, 0, 8, 1, 10, 4], by decide, by decide⟩,
    by decide⟩, ⟨[0, 0, 0, 0, 0, 0, 0, 1], by decide, by decide⟩,
    ⟨[0, 0, 0, 0, 0, 0, 0, 4], by decide, by decide⟩, by decide, by decide⟩,
    by decide, .inl (by decide), by decide⟩

/-- The directories are found, the listed one and the one on the way to the file. -/
theorem initramfs_round_trip_small :
    ∃ s, initramfsInit (fun i => smallArchive.getD i 0#8) 0 352 = some s ∧
      (∃ n, Found s [[0x64#8]] n ∧ (s.nodes n).type = .directory) ∧
      (∃ n, Found s [[0x61#8]] n ∧ (s.nodes n).type = .directory) ∧
      ∃ n, Found s [[0x61#8], [0x62#8]] n ∧ (s.nodes n).type = .file ∧ (s.nodes n).data = 228 := by
  obtain ⟨s, hinit, hfiles, hdirs, -⟩ :=
    initramfs_round_trip (by decide) (by decide) wellFormed_small archiveAt_small
  have hfile : smallFile ∈ [smallDir, smallFile] := mem_cons_of_mem _ mem_cons_self
  obtain ⟨n, hn, htype, -, hdata, -⟩ :=
    hfiles smallFile 112 (mem_cons_of_mem (smallDir, 0) mem_cons_self) rfl
  exact ⟨s, hinit, hdirs smallDir mem_cons_self _ (by decide) (by decide),
    hdirs smallFile hfile [[0x61#8]] (by decide) (by decide), n, hn, htype, hdata⟩

end Aeryk.Fs
