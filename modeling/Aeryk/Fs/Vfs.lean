import Aeryk.Fs.Read
import Aeryk.Lib.Linked
import Aeryk.Lib.NamedTree

/-!
# The tree of the file system

`vfs.c` keeps the nodes of the file system in kernel memory.  A directory points to its last child,
and the children are linked by `next`.  A path is looked up segment by segment, and
`create_directories` makes the segments that are missing on the way to a file.

A C string is the list of its bytes before the `NUL`.  Addresses of nodes are numbers that
`kmalloc` hands out one after the other; that it has memory left is assumed.  The loop over the
children has `fuel`, enough if there is as much as there are nodes, and `none` as a whole answer
says that it ran out.
-/

namespace Aeryk.Fs

open List Function Lib

/-- `'/'`. -/
def slash : Byte := 0x2f#8

inductive NodeType where
  | file
  | directory
deriving DecidableEq

structure Node where
  name : List Byte
  type : NodeType
  size : Nat
  data : Nat
  parent : Option Nat
  children : Option Nat
  next : Option Nat

/-- The nodes by address, the addresses handed out so far, and `vfs_root`. -/
structure Vfs where
  nodes : Nat → Node
  fresh : Nat
  root : Nat

/-- `strncmp_path`.  Behind its end a string has zeros. -/
def strncmpPath : List Byte → List Byte → Nat → Int
  | _, _, 0 => 0
  | s1, s2, n + 1 =>
    if s1.headD 0#8 ≠ 0#8 ∧ s1.headD 0#8 = s2.headD 0#8 then strncmpPath s1.tail s2.tail n
    else (s1.headD 0#8).toInt - (s2.headD 0#8).toInt

/-- The segment of `len` bytes at the start of `path` is the name. -/
def matches? (name path : List Byte) (len : Nat) : Bool :=
  strncmpPath name path len = 0 && name.getD len 0#8 = 0#8

namespace Vfs

/-- The loop of `vfs_find_node` over the children. -/
def findChild (s : Vfs) (path : List Byte) (len : Nat) : Nat → Option Nat → Option (Option Nat)
  | 0, _ => none
  | _ + 1, none => some none
  | fuel + 1, some child =>
    if matches? (s.nodes child).name path len then some (some child)
    else s.findChild path len fuel (s.nodes child).next

def vfsFindNode (s : Vfs) (parent : Nat) (path : List Byte) : Option (Option Nat) :=
  match _h : path.dropWhile (· = slash) with
  | [] => some (some parent)
  | c :: rest =>
    let len := ((c :: rest).takeWhile (· ≠ slash)).length
    match s.findChild (c :: rest) len (s.fresh + 1) (s.nodes parent).children with
    | none => none
    | some none => some none
    | some (some child) => s.vfsFindNode child (((c :: rest).dropWhile (· ≠ slash)).tail)
termination_by path.length
decreasing_by
  have hle := length_dropWhile_le (· = slash) path
  have hle' := length_dropWhile_le (· ≠ slash) (c :: rest)
  rw [_h] at hle
  rw [length_tail]
  simp only [length_cons] at hle hle' ⊢
  omega

def vfsCreateNode (s : Vfs) (name : List Byte) (type : NodeType) : Vfs × Nat :=
  ({ s with
      nodes := update s.nodes s.fresh
        { name := (name.takeWhile (· ≠ slash)).take 127
          type
          size := 0
          data := 0
          parent := none
          children := none
          next := none }
      fresh := s.fresh + 1 }, s.fresh)

def modify (s : Vfs) (n : Nat) (f : Node → Node) : Vfs :=
  { s with nodes := update s.nodes n (f (s.nodes n)) }

def vfsAddChild (s : Vfs) (parent child : Nat) : Vfs :=
  let s := s.modify child fun x => { x with parent := some parent }
  let s := s.modify child fun x => { x with next := (s.nodes parent).children }
  s.modify parent fun x => { x with children := some child }

/-- `create_directories`, from the node `current` on. -/
def createDirectories (s : Vfs) (current : Nat) (path : List Byte) : Option (Vfs × Nat) :=
  match _h : path.dropWhile (· ≠ slash) with
  | [] => some (s, current)
  | _ :: rest =>
    let buffer := path.takeWhile (· ≠ slash)
    match s.vfsFindNode current buffer with
    | none => none
    | some (some child) => s.createDirectories child rest
    | some none =>
      let o := s.vfsCreateNode buffer .directory
      (o.1.vfsAddChild current o.2).createDirectories o.2 rest
termination_by path.length
decreasing_by
  all_goals
    have hle := length_dropWhile_le (· ≠ slash) path
    rw [_h] at hle
    exact hle

end Vfs

def initVfs : Vfs :=
  ((⟨fun _ => ⟨[], .file, 0, 0, none, none, none⟩, 0, 0⟩ : Vfs).vfsCreateNode [slash] .directory).1

/-! ## Names -/

/-- The name of a segment: not empty, and without `'/'` or `NUL`. -/
structure Segment (c : List Byte) : Prop where
  ne_nil : c ≠ []
  slash : slash ∉ c
  nul : 0#8 ∉ c

def joinPath : List (List Byte) → List Byte
  | [] => []
  | [c] => c
  | c :: d :: p => c ++ slash :: joinPath (d :: p)

section

variable {s s' : Vfs} {name path c r : List Byte} {n k len fuel : Nat} {p q : List (List Byte)}

/-- The comparison with a segment tells whether it is the name. -/
theorem matches_iff (hname : 0#8 ∉ name) (hlen : len ≤ path.length)
    (hpath : 0#8 ∉ path.take len) : matches? name path len = true ↔ name = path.take len := by
  unfold matches?
  rw [Bool.and_eq_true, decide_eq_true_eq, decide_eq_true_eq]
  induction len generalizing name path with
  | zero =>
    cases name with
    | nil => simp [strncmpPath]
    | cons a name =>
      have ha : a ≠ 0#8 := fun hc => hname (hc ▸ mem_cons_self)
      simp [strncmpPath, ha]
  | succ len ih =>
    cases path with
    | nil => simp at hlen
    | cons b path =>
      rw [take_succ_cons] at hpath ⊢
      have hb : b ≠ 0#8 := fun hc => hpath (hc ▸ mem_cons_self)
      cases name with
      | nil =>
        have hdiff : b.toInt ≠ 0 := fun hc => hb (BitVec.toInt_inj.mp hc)
        simp [strncmpPath, hdiff]
      | cons a name =>
        have ha : a ≠ 0#8 := fun hc => hname (hc ▸ mem_cons_self)
        have hrest := ih (fun hc => hname (mem_cons_of_mem a hc))
          (by simpa using hlen) fun hc => hpath (mem_cons_of_mem b hc)
        by_cases hab : a = b
        · subst hab
          simpa [strncmpPath, ha] using hrest
        · have hdiff : a.toInt - b.toInt ≠ 0 := fun hc =>
            hab (BitVec.toInt_inj.mp (by omega))
          simp [strncmpPath, ha, hab, hdiff]

/-- The loop over the children finds the first one of that name. -/
theorem findChild_eq {start : Option Nat} {l : List Nat}
    (h : Chain (fun i => (s.nodes i).next) start l) (hfuel : l.length < fuel) :
    s.findChild path len fuel start =
      some (l.find? fun k => matches? (s.nodes k).name path len) := by
  induction l generalizing start fuel with
  | nil =>
    cases fuel with
    | zero => cases hfuel
    | succ fuel =>
      rw [chain_nil.mp h]
      rfl
  | cons a l ih =>
    cases fuel with
    | zero => cases hfuel
    | succ fuel =>
      obtain ⟨rfl, hrest⟩ := chain_cons.mp h
      rw [Vfs.findChild, find?_cons]
      cases hm : matches? (s.nodes a).name path len with
      | true => simp
      | false => simpa using ih hrest (Nat.lt_of_succ_lt_succ hfuel)

theorem dropWhile_ne (hc : slash ∉ c) : c.dropWhile (· ≠ slash) = [] := by
  rw [dropWhile_eq_nil_iff]
  intro b hb
  simpa using fun hs : b = slash => hc (hs ▸ hb)

theorem takeWhile_ne (hc : slash ∉ c) : c.takeWhile (· ≠ slash) = c := by
  rw [takeWhile_eq_self_iff]
  intro b hb
  simpa using fun hs : b = slash => hc (hs ▸ hb)

/-- What follows a segment: nothing, or a slash and more. -/
def Ends (r : List Byte) : Prop := r = [] ∨ ∃ t, r = slash :: t

theorem takeWhile_segment (hc : slash ∉ c) (hr : Ends r) :
    (c ++ r).takeWhile (· ≠ slash) = c ∧ (c ++ r).dropWhile (· ≠ slash) = r := by
  have hall : ∀ b ∈ c, (decide (b ≠ slash)) = true := by
    intro b hb
    simpa using fun hs : b = slash => hc (hs ▸ hb)
  rw [takeWhile_append_of_pos hall, dropWhile_append_of_pos hall]
  rcases hr with rfl | ⟨t, rfl⟩
  · simp
  · simp

/-- A segment at the start of the path is looked up among the children. -/
theorem vfsFindNode_segment (hc : Segment c) (hr : Ends r) :
    s.vfsFindNode n (c ++ r) =
      match s.findChild (c ++ r) c.length (s.fresh + 1) (s.nodes n).children with
      | none => none
      | some none => some none
      | some (some child) => s.vfsFindNode child r.tail := by
  obtain ⟨htake, hdrop⟩ := takeWhile_segment hc.slash hr
  cases c with
  | nil => exact absurd rfl hc.ne_nil
  | cons b c =>
    have hb : b ≠ slash := fun hs => hc.slash (hs ▸ mem_cons_self)
    have hstart : (b :: (c ++ r)).dropWhile (· = slash) = b :: (c ++ r) := by simp [hb]
    rw [cons_append] at htake hdrop ⊢
    rw [Vfs.vfsFindNode]
    split
    next heq =>
      rw [hstart] at heq
      cases heq
    next heq =>
      rw [hstart] at heq
      cases heq
      rw [htake, hdrop]

end

/-! ## The tree in memory -/

inductive Item where
  | directory
  | file (size data : Nat)
deriving DecidableEq

def Node.item (x : Node) : Item :=
  match x.type with
  | .directory => .directory
  | .file => .file x.size x.data

def Vfs.nameOf (s : Vfs) (n : Nat) : List Byte := (s.nodes n).name

/-- The children of each node are linked, and names have no `NUL` inside. -/
structure Linked (s : Vfs) (kids : Nat → List Nat) : Prop where
  chain : ∀ n < s.fresh, Chain (fun i => (s.nodes i).next) (s.nodes n).children (kids n)
  bound : ∀ n, ∀ k ∈ kids n, n < s.fresh ∧ k < s.fresh
  nul : ∀ n, ∀ k ∈ kids n, 0#8 ∉ s.nameOf k

/-- The links in memory are those of a tree, and `T` is what stands at its paths. -/
structure Shows (s : Vfs) (kids : Nat → List Nat) (T : List (List Byte) → Option Item) :
    Prop where
  chain : ∀ n < s.fresh, Chain (fun i => (s.nodes i).next) (s.nodes n).children (kids n)
  bound : ∀ n, ∀ k ∈ kids n, n < s.fresh ∧ k < s.fresh
  nul : ∀ n, ∀ k ∈ kids n, 0#8 ∉ s.nameOf k
  rooted : Rooted kids s.nameOf s.root
  rootLt : s.root < s.fresh
  items : ∀ p, (lookup kids s.nameOf s.root p).map (fun n => (s.nodes n).item) = T p

section

variable {s s' : Vfs} {kids : Nat → List Nat} {T : List (List Byte) → Option Item}
  {c r : List Byte} {n k : Nat} {p q : List (List Byte)} {x : Node}

/-- There are no more children than nodes. -/
theorem Linked.length_le (h : Linked s kids) (n : Nat) : (kids n).length ≤ s.fresh := by
  rcases Nat.lt_or_ge n s.fresh with hn | hn
  · have hsub : kids n ⊆ range s.fresh := by
      intro k hk
      exact mem_range.mpr (h.bound n k hk).2
    have hle := ((h.chain n hn).nodup.subperm hsub).length_le
    simpa using hle
  · have hnil : kids n = [] := by
      refine eq_nil_iff_forall_not_mem.mpr fun k hk => ?_
      exact absurd (h.bound n k hk).1 (Nat.not_lt_of_le hn)
    simp [hnil]

theorem Shows.linked (h : Shows s kids T) : Linked s kids := ⟨h.chain, h.bound, h.nul⟩

theorem Shows.lookup_lt (h : Shows s kids T) (hn : lookup kids s.nameOf s.root p = some n) :
    n < s.fresh := by
  rcases eq_nil_or_concat p with rfl | ⟨p, c, rfl⟩
  · obtain rfl := Option.some.inj hn
    exact h.rootLt
  · rw [concat_eq_append] at hn
    obtain ⟨m, -, hk, -⟩ := lookup_snoc_some hn
    exact (h.bound m n hk).2

theorem joinPath_cons (c : List Byte) (p : List (List Byte)) :
    ∃ r, joinPath (c :: p) = c ++ r ∧ Ends r ∧ r.tail = joinPath p := by
  cases p with
  | nil => exact ⟨[], by simp [joinPath], .inl rfl, rfl⟩
  | cons d p => exact ⟨slash :: joinPath (d :: p), rfl, .inr ⟨_, rfl⟩, rfl⟩

/-- One segment is looked up among the children of a node. -/
theorem Linked.findChild (h : Linked s kids) (hn : n < s.fresh) (hc : Segment c) :
    s.findChild (c ++ r) c.length (s.fresh + 1) (s.nodes n).children =
      some ((kids n).find? fun k => decide (s.nameOf k = c)) := by
  rw [findChild_eq (h.chain n hn) (Nat.lt_succ_of_le (h.length_le n))]
  congr 1
  refine find?_eq_of_mem fun k hk => ?_
  have htake : (c ++ r).take c.length = c := by simp
  rw [Bool.eq_iff_iff, decide_eq_true_eq]
  have hiff : matches? (s.nodes k).name (c ++ r) c.length = true ↔
      (s.nodes k).name = (c ++ r).take c.length :=
    matches_iff (h.nul n k hk) (by simp) (by rw [htake]; exact hc.nul)
  rw [htake] at hiff
  exact hiff

/-- `vfs_find_node` follows the path. -/
theorem Shows.find (h : Shows s kids T) (hn : n < s.fresh) (hp : ∀ c ∈ p, Segment c) :
    s.vfsFindNode n (joinPath p) = some (lookup kids s.nameOf n p) := by
  induction p generalizing n with
  | nil =>
    rw [joinPath, Vfs.vfsFindNode]
    rfl
  | cons c p ih =>
    obtain ⟨r, hjoin, hends, htail⟩ := joinPath_cons c p
    have hc := hp c mem_cons_self
    rw [hjoin, vfsFindNode_segment hc hends, h.linked.findChild hn hc, Lib.lookup_cons]
    cases hk : (kids n).find? fun k => decide (s.nameOf k = c) with
    | none => rfl
    | some k =>
      have hmem := mem_of_find?_eq_some hk
      rw [htail]
      exact ih (h.bound n k hmem).2 fun d hd => hp d (mem_cons_of_mem c hd)

/-- The node `k` is reached from `n` by children of the names in the path. -/
def AtPath (s : Vfs) : Nat → List (List Byte) → Nat → Prop
  | n, [], k => k = n
  | n, c :: p, k => ∃ l, Chain (fun i => (s.nodes i).next) (s.nodes n).children l ∧
    ∃ j ∈ l, s.nameOf j = c ∧ AtPath s j p k

/-- The node at a path is the one that is found. -/
theorem Shows.atPath (h : Shows s kids T) (hn : n < s.fresh) :
    AtPath s n p k ↔ lookup kids s.nameOf n p = some k := by
  induction p generalizing n with
  | nil =>
    rw [AtPath, Lib.lookup_nil, Option.some.injEq]
    exact eq_comm
  | cons c p ih =>
    rw [AtPath, Lib.lookup_cons, Option.bind_eq_some_iff]
    constructor
    · rintro ⟨l, hl, j, hj, rfl, hrest⟩
      obtain rfl := hl.unique (h.chain n hn)
      exact ⟨j, h.rooted.find? hj, (ih (h.bound n j hj).2).mp hrest⟩
    · rintro ⟨j, hj, hrest⟩
      have hmem := mem_of_find?_eq_some hj
      refine ⟨kids n, h.chain n hn, j, hmem, by simpa using find?_some hj, ?_⟩
      exact (ih (h.bound n j hmem).2).mpr hrest

/-! ## A new node -/

/-- The node `x` has been made at the next address and added to the children of `n`. -/
structure Added (s : Vfs) (n : Nat) (x : Node) (s' : Vfs) : Prop where
  root : s'.root = s.root
  fresh : s'.fresh = s.fresh + 1
  lt : n < s.fresh
  nodes : ∀ i, s'.nodes i =
    if i = n then { s.nodes n with children := some s.fresh }
    else if i = s.fresh then { x with parent := some n, next := (s.nodes n).children }
    else s.nodes i

theorem added_vfsAddChild (hn : n < s.fresh) (x : Node) :
    Added s n x ({ s with
      nodes := update s.nodes s.fresh x
      fresh := s.fresh + 1 }.vfsAddChild n s.fresh) := by
  refine ⟨rfl, rfl, hn, fun i => ?_⟩
  have hne : n ≠ s.fresh := Nat.ne_of_lt hn
  unfold Vfs.vfsAddChild Vfs.modify
  by_cases hi : i = n
  · subst hi
    simp [hne]
  · by_cases hi' : i = s.fresh
    · subst hi'
      simp [hi, hne]
    · simp [hi, hi']

theorem Added.node_new (h : Added s n x s') :
    s'.nodes s.fresh = { x with parent := some n, next := (s.nodes n).children } := by
  rw [h.nodes, if_neg (Nat.ne_of_gt h.lt), if_pos rfl]

theorem Added.node_parent (h : Added s n x s') :
    s'.nodes n = { s.nodes n with children := some s.fresh } := by
  rw [h.nodes, if_pos rfl]

theorem Added.node_other (h : Added s n x s') (hn : k ≠ n) (hk : k ≠ s.fresh) :
    s'.nodes k = s.nodes k := by
  rw [h.nodes, if_neg hn, if_neg hk]

/-- Of the old nodes only the children of `n` are others. -/
theorem Added.node_old (h : Added s n x s') (hk : k ≠ s.fresh) :
    s'.nameOf k = s.nameOf k ∧ (s'.nodes k).next = (s.nodes k).next ∧
      (s'.nodes k).item = (s.nodes k).item := by
  unfold Vfs.nameOf
  by_cases hn : k = n
  · subst hn
    rw [h.node_parent]
    exact ⟨rfl, rfl, rfl⟩
  · rw [h.node_other hn hk]
    exact ⟨rfl, rfl, rfl⟩

theorem Added.name_new (h : Added s n x s') : s'.nameOf s.fresh = x.name := by
  unfold Vfs.nameOf
  rw [h.node_new]

def addKid (kids : Nat → List Nat) (n k m : Nat) : List Nat := if m = n then k :: kids n else kids m

theorem Linked.not_fresh (h : Linked s kids) (m : Nat) : s.fresh ∉ kids m :=
  fun hm => Nat.lt_irrefl _ (h.bound m _ hm).2

theorem Linked.kids_fresh (h : Linked s kids) : kids s.fresh = [] := by
  refine eq_nil_iff_forall_not_mem.mpr fun k hk => ?_
  exact absurd (h.bound _ k hk).1 (Nat.lt_irrefl _)

/-- A name that stands nowhere below a node is none of its children's. -/
theorem Shows.name_free (h : Shows s kids T) (hq : lookup kids s.nameOf s.root q = some n)
    (hfree : T (q ++ [c]) = none) : ∀ j ∈ kids n, s.nameOf j ≠ c := by
  rintro j hj rfl
  have hfind : lookup kids s.nameOf s.root (q ++ [s.nameOf j]) = some j := by
    rw [lookup_snoc, hq]
    exact h.rooted.find? hj
  have hitem := h.items (q ++ [s.nameOf j])
  rw [hfind, hfree] at hitem
  cases hitem

/-- The links of the tree with the new node. -/
theorem Linked.chain_add (h : Linked s kids) (ha : Added s n x s') (hleaf : x.children = none)
    (hk : k < s'.fresh) :
    Chain (fun i => (s'.nodes i).next) (s'.nodes k).children (addKid kids n s.fresh k) := by
  have hold : ∀ {start : Option Nat} {m : Nat},
      Chain (fun i => (s.nodes i).next) start (kids m) →
      Chain (fun i => (s'.nodes i).next) start (kids m) := by
    intro start m hchain
    refine hchain.congr fun j hj => ?_
    exact (ha.node_old fun hc => h.not_fresh m (hc ▸ hj)).2.1
  unfold addKid
  by_cases hkn : k = n
  · subst hkn
    rw [if_pos rfl, ha.node_parent, Lib.chain_cons, ha.node_new]
    exact ⟨rfl, hold (h.chain k ha.lt)⟩
  · rw [if_neg hkn]
    by_cases hkf : k = s.fresh
    · subst hkf
      rw [ha.node_new, h.kids_fresh]
      exact hleaf
    · rw [ha.node_other hkn hkf]
      exact hold (h.chain k (by rw [ha.fresh] at hk; omega))

/-- The links stay those of a tree when a node is added. -/
theorem Linked.add (h : Linked s kids) (ha : Added s n x s') (hnul : 0#8 ∉ x.name)
    (hleaf : x.children = none) : Linked s' (addKid kids n s.fresh) := by
  have hnames : ∀ m, m ≠ s.fresh → s'.nameOf m = s.nameOf m := fun m hm => (ha.node_old hm).1
  have hmem : ∀ {m k}, k ∈ addKid kids n s.fresh m → k ∈ kids m ∨ (k = s.fresh ∧ m = n) :=
    fun hk => mem_of_added (fun _ => rfl) hk
  refine ⟨fun m hm => h.chain_add ha hleaf hm, ?_, ?_⟩
  · intro m k hk
    rw [ha.fresh]
    rcases hmem hk with hk | ⟨rfl, rfl⟩
    · obtain ⟨hm, hk⟩ := h.bound m k hk
      omega
    · have := ha.lt
      omega
  · intro m k hk
    rcases hmem hk with hk | ⟨rfl, rfl⟩
    · rw [hnames k fun hc => h.not_fresh m (hc ▸ hk)]
      exact h.nul m k hk
    · rw [ha.name_new]
      exact hnul

/-- A node with a name that is free is added below a node of the tree. -/
theorem Shows.add (h : Shows s kids T) (ha : Added s n x s')
    (hq : lookup kids s.nameOf s.root q = some n) (hfree : T (q ++ [x.name]) = none)
    (hnul : 0#8 ∉ x.name) (hleaf : x.children = none) :
    Shows s' (addKid kids n s.fresh) (fun p => if p = q ++ [x.name] then some x.item else T p) ∧
      lookup (addKid kids n s.fresh) s'.nameOf s'.root (q ++ [x.name]) = some s.fresh := by
  have hroot : s.fresh ≠ s.root := Nat.ne_of_gt h.rootLt
  have hnames : ∀ m, m ≠ s.fresh → s'.nameOf m = s.nameOf m := fun m hm => (ha.node_old hm).1
  have hapart : ∀ j ∈ kids n, s.nameOf j ≠ s'.nameOf s.fresh := by
    rw [ha.name_new]
    exact h.name_free hq hfree
  have hlookup : ∀ p, lookup (addKid kids n s.fresh) s'.nameOf s'.root p =
      if p = q ++ [x.name] then some s.fresh else lookup kids s.nameOf s.root p := by
    intro p
    rw [ha.root, ← ha.name_new]
    exact h.rooted.lookup_add h.linked.not_fresh hroot (fun _ => rfl) hnames hapart
      h.linked.kids_fresh hq
  have hlinked := h.linked.add ha hnul hleaf
  refine ⟨⟨hlinked.chain, hlinked.bound, hlinked.nul, ?_, ?_, ?_⟩, ?_⟩
  · rw [ha.root]
    exact h.rooted.add h.linked.not_fresh hroot (fun _ => rfl) hnames hapart
  · rw [ha.root, ha.fresh]
    exact Nat.lt_succ_of_lt h.rootLt
  · intro p
    rw [hlookup]
    split
    · rw [Option.map_some, ha.node_new]
      rfl
    · rw [← h.items p]
      cases hp : lookup kids s.nameOf s.root p with
      | none => rfl
      | some m =>
        rw [Option.map_some, Option.map_some, (ha.node_old (Nat.ne_of_lt (h.lookup_lt hp))).2.2]
  · rw [hlookup, if_pos rfl]

/-! ## Missing directories -/

/-- The paths up to `path` are directories where they were nothing. -/
def withDirs (T : List (List Byte) → Option Item) (path p : List (List Byte)) : Option Item :=
  if T p = none ∧ p <+: path then some .directory else T p

theorem Shows.not_none (h : Shows s kids T) (hq : lookup kids s.nameOf s.root q = some n)
    (hp : p <+: q) : T p ≠ none := by
  obtain ⟨r, rfl⟩ := hp
  obtain ⟨m, hm⟩ := lookup_of_append hq
  rw [← h.items p, hm]
  simp

/-- A name that fits is stored as it is. -/
theorem vfsCreateNode_eq (s : Vfs) (hc : Segment c) (hlen : c.length ≤ 127) (type : NodeType) :
    s.vfsCreateNode c type =
      ({ s with
          nodes := update s.nodes s.fresh ⟨c, type, 0, 0, none, none, none⟩
          fresh := s.fresh + 1 }, s.fresh) := by
  unfold Vfs.vfsCreateNode
  rw [takeWhile_ne hc.slash, take_of_length_le hlen]

theorem joinPath_snoc (c : List Byte) (p : List (List Byte)) (leaf : List Byte) :
    joinPath (c :: (p ++ [leaf])) = c ++ slash :: joinPath (p ++ [leaf]) := by
  cases p with
  | nil => rfl
  | cons d p => rfl

/-- One turn of the loop in `create_directories`. -/
theorem createDirectories_segment (hc : slash ∉ c) :
    s.createDirectories n (c ++ slash :: r) =
      match s.vfsFindNode n c with
      | none => none
      | some (some child) => s.createDirectories child r
      | some none =>
        ((s.vfsCreateNode c .directory).1.vfsAddChild n
          (s.vfsCreateNode c .directory).2).createDirectories
            (s.vfsCreateNode c .directory).2 r := by
  obtain ⟨htake, hdrop⟩ := takeWhile_segment hc (r := slash :: r) (.inr ⟨r, rfl⟩)
  rw [Vfs.createDirectories]
  split
  next heq =>
    rw [hdrop] at heq
    cases heq
  next heq =>
    rw [hdrop] at heq
    cases heq
    rw [htake]

theorem createDirectories_leaf (hc : slash ∉ c) : s.createDirectories n c = some (s, n) := by
  rw [Vfs.createDirectories]
  split
  · rfl
  next heq =>
    rw [dropWhile_ne hc] at heq
    cases heq

/-- `create_directories` makes the directories that are missing and answers with the last. -/
theorem Shows.createDirectories {path : List (List Byte)} {leaf : List Byte} (h : Shows s kids T)
    (hq : lookup kids s.nameOf s.root q = some n)
    (hpath : ∀ c ∈ path, Segment c ∧ c.length ≤ 127) (hleaf : slash ∉ leaf) :
    ∃ s' kids' n', s.createDirectories n (joinPath (path ++ [leaf])) = some (s', n') ∧
      Shows s' kids' (withDirs T (q ++ path)) ∧
      lookup kids' s'.nameOf s'.root (q ++ path) = some n' := by
  induction path generalizing s kids T q n with
  | nil =>
    refine ⟨s, kids, n, ?_, ?_, ?_⟩
    · exact createDirectories_leaf hleaf
    · have hsame : withDirs T (q ++ []) = T := by
        funext p
        rw [append_nil]
        exact if_neg fun hc => h.not_none hq hc.2 hc.1
      rw [hsame]
      exact h
    · rw [append_nil]
      exact hq
  | cons c path ih =>
    obtain ⟨hc, hlen⟩ := hpath c mem_cons_self
    have hrest : ∀ d ∈ path, Segment d ∧ d.length ≤ 127 := fun d hd =>
      hpath d (mem_cons_of_mem c hd)
    have hfind : s.vfsFindNode n c = some (lookup kids s.nameOf n [c]) :=
      h.find (p := [c]) (h.lookup_lt hq) (by simpa using hc)
    have hnext : lookup kids s.nameOf s.root (q ++ [c]) = lookup kids s.nameOf n [c] := by
      rw [Lib.lookup_append, hq, Option.bind_some]
    have hcons : q ++ c :: path = q ++ [c] ++ path := by simp
    rw [cons_append, joinPath_snoc, createDirectories_segment hc.slash, hfind, hcons]
    cases hk : lookup kids s.nameOf n [c] with
    | some child =>
      rw [hk] at hnext
      exact ih h hnext hrest
    | none =>
      have hfree : T (q ++ [c]) = none := by
        rw [← h.items, hnext, hk]
        rfl
      rw [vfsCreateNode_eq s hc hlen]
      obtain ⟨h', hnew⟩ := h.add (added_vfsAddChild (h.lookup_lt hq)
        ⟨c, .directory, 0, 0, none, none, none⟩) hq hfree hc.nul rfl
      obtain ⟨s', kids', n', heq, hshows, hlast⟩ := ih h' hnew hrest
      refine ⟨s', kids', n', heq, ?_, hlast⟩
      have hsame : withDirs T (q ++ [c] ++ path) =
          withDirs (fun p => if p = q ++ [c] then some Item.directory else T p)
            (q ++ [c] ++ path) := by
        funext p
        unfold withDirs
        by_cases hp : p = q ++ [c]
        · subst hp
          simp [hfree]
        · simp [hp]
      rw [hsame]
      exact hshows

end

end Aeryk.Fs
