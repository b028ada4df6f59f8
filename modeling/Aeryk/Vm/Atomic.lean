import Aeryk.Proc.Spaces
import Aeryk.Vm.Fork
import Aeryk.Vm.Fresh

/-!
# A fork that fails

`clone_process` promises the child or `NULL`, and with `NULL` a state in which nothing has
happened.  The process layer and the page frames are put together here.

The promise is kept where no frame is free, since then nothing is started, and where there are
frames enough for everything.  In between the copy is destroyed again.  That undoes it if every
page of the allocator was mapped before the frames ran out, and no reference count went past 65535.
-/

namespace Aeryk.Vm

open Finset Lib Mem Mem.Pmm Memory

/-! ## The process layer -/

section

variable (k : Kernel) (parent childStack : Nat) {flags : Nat} {ans : Kernel.CloneAnswer}

open Kernel

/-- Without `CLONE_VM` and without a page for the stack there is no child. -/
theorem cloneProcess_refused (hflags : flags &&& cloneVm = 0) (hstack : ans.stack = none) :
    (k.cloneProcess parent flags childStack ans).2 = none ∧
      (k.cloneProcess parent flags childStack ans).1.procs = k.procs ∧
      (k.cloneProcess parent flags childStack ans).1.pipes = k.pipes := by
  unfold Kernel.cloneProcess Kernel.cloneSpace
  rw [if_neg fun hc => hc hflags, hstack]
  cases ans.table with
  | none => exact ⟨rfl, rfl, rfl⟩
  | some t =>
    cases ans.child with
    | none => exact ⟨rfl, rfl, rfl⟩
    | some a => exact ⟨rfl, rfl, rfl⟩

theorem dupEnds_procs (a : Nat) : (k.dupEnds a).procs = k.procs := by
  obtain ⟨P, hP⟩ := dupEnds_eq a (List.finRange maxFds) k
  unfold Kernel.dupEnds
  rw [hP]

/-- The child runs on the copy. -/
theorem cloneProcess_child (t a st : Nat) (hflags : flags &&& cloneVm = 0) :
    (k.cloneProcess parent flags childStack ⟨none, some t, some a, some st⟩).2 = some a ∧
      ((k.cloneProcess parent flags childStack ⟨none, some t, some a, some st⟩).1.procs a).cr3 =
        t := by
  unfold Kernel.cloneProcess Kernel.cloneSpace
  rw [if_neg fun hc => hc hflags]
  refine ⟨rfl, (congrArg Prod.fst (launch_space _ a a)).trans ?_⟩
  rw [dupEnds_procs]
  exact congrArg Process.cr3 place_same

end

/-! ## Processes and page frames -/

/-- The process layer and the memory below it. -/
structure System where
  kernel : Kernel
  mem : Memory

namespace System

/-- The page frame of the `pml4` of a process. -/
def root (s : System) (p : Nat) : Nat := (s.kernel.procs p).cr3 / pageSize

/-- `clone_process` without `CLONE_VM`.  `room`: a slab has room for a `process_t`; `chunk`: where.
-/
def cloneProcess (s : System) (parent flags childStack : Nat) (room : Bool) (chunk : Nat) :
    System × Option Nat :=
  let calls := s.mem.cloneCalls (s.root parent) room chunk
  let r := s.kernel.cloneProcess parent flags childStack calls.2
  (⟨r.1, calls.1⟩, r.2)

/-- The child maps the present pages of the parent and no others, to the same frames and with the
flags of a forked page. -/
def Copied (s s' : System) (parent child : Nat) : Prop :=
  ∀ v < userPages, s'.mem.leaf (s'.root child) v =
    if isSet (s.mem.leaf (s.root parent) v) ptePresent then forked (s.mem.leaf (s.root parent) v)
    else 0#64

/-- Each page of the process is there, in the same frame and with the same contents. -/
def SamePages (s s' : System) (p : Nat) : Prop :=
  ∀ v < userPages, isSet (s.mem.leaf (s.root p) v) ptePresent = true →
    isSet (s'.mem.leaf (s.root p) v) ptePresent = true ∧
      frameOf (s'.mem.leaf (s.root p) v) = frameOf (s.mem.leaf (s.root p) v) ∧
      s'.mem.words (frameOf (s.mem.leaf (s.root p) v)) =
        s.mem.words (frameOf (s.mem.leaf (s.root p) v))

/-- The frames, the descriptors, the pipes and the pages of the parent are as before. -/
structure Untouched (s s' : System) (parent : Nat) : Prop where
  frames : SamePmm s.mem.pmm s'.mem.pmm
  fds : ∀ p, (s'.kernel.procs p).fdTable = (s.kernel.procs p).fdTable
  pipes : s'.kernel.pipes = s.kernel.pipes
  pages : SamePages s s' parent

/-- There is a child with a copy of the address space, or nothing has happened. -/
def AllOrNothing (s : System) (parent : Nat) (o : System × Option Nat) : Prop :=
  match o.2 with
  | some child => Copied s o.1 parent child
  | none => Untouched s o.1 parent

/-- The frames of process `p` are counted, no count has reached 65536, and a page that is not the
allocator's is in none of its frames. -/
structure Sound (s : System) (res : Nat → Bool) (R : Finset Nat) (K : Nat → Nat) (p : Nat) :
    Prop where
  accounted : Accounted s.mem res R K
  low : ∀ f, s.mem.uses R K f < 65536
  root : s.root p ∈ R
  outside : ∀ v < userPages, isSet (s.mem.leaf (s.root p) v) ptePresent = true →
    isSet (s.mem.leaf (s.root p) v) pteNopmm = true →
    res (frameOf (s.mem.leaf (s.root p) v)) = true ∨
      s.mem.pmm.pages ≤ frameOf (s.mem.leaf (s.root p) v)

/-- What `clone_process` needs: no free frame, or frames enough, or frames enough for the tables of
every page of the allocator and counts that do not reach 65536. -/
def CloneFits (s : System) (parent : Nat) (room : Bool) : Prop :=
  s.mem.freeCount = 0 ∨ framesNeeded s.mem (s.root parent) room ≤ s.mem.freeCount ∨
    (∀ f, 0 < shares s.mem (s.root parent) f →
      s.mem.pmm.refcount f + shares s.mem (s.root parent) f < 65536) ∧
    ∀ v < userPages, owned (s.mem.leaf (s.root parent) v) ≠ none →
      (tablesUpTo s.mem (s.root parent) v).card < s.mem.freeCount

section

variable {s : System} {res : Nat → Bool} {R : Finset Nat} {K : Nat → Nat}
  {parent flags childStack chunk : Nat} {room : Bool}

/-- The pages of the parent are kept by everything that is done to copy them. -/
theorem Sound.kept (h : Sound s res R K parent) {v : Nat} (hv : v < userPages)
    (hp : isSet (s.mem.leaf (s.root parent) v) ptePresent = true) :
    Kept s.mem res R K (frameOf (s.mem.leaf (s.root parent) v)) := by
  cases hn : isSet (s.mem.leaf (s.root parent) v) pteNopmm with
  | false =>
    have ho := owned_eq_some.mpr ⟨⟨hp, hn⟩, rfl⟩
    exact ⟨h.accounted.not_table_of_leaf h.root hv ho,
      .inl (uses_pos_of_leaf h.root hv ho)⟩
  | true =>
    have hout := h.outside v hv hp hn
    refine ⟨fun ht => ?_, .inr hout⟩
    obtain ⟨hlt, hres⟩ := h.accounted.range _ (by rw [h.accounted.uses_table ht]; decide)
    rcases hout with hr | hle
    · exact Bool.false_ne_true (hres.symm.trans hr)
    · omega

/-- The copy has been destroyed again.  Only the frames can tell. -/
theorem Sound.untouched_iff (h : Sound s res R K parent) {m₁ : Memory} {dst : Nat} {k : Kernel}
    (hc : Cloned res R K s.mem m₁ (s.root parent) dst) (hprocs : k.procs = s.kernel.procs)
    (hpipes : k.pipes = s.kernel.pipes) :
    Untouched s ⟨k, m₁.destroyUserPagetable dst⟩ parent ↔
      SamePmm s.mem.pmm (m₁.destroyUserPagetable dst).pmm := by
  refine ⟨fun hu => hu.frames, fun hsame => ⟨hsame, fun p => by rw [hprocs], hpipes, ?_⟩⟩
  intro v hv hp
  have hleaf : (m₁.destroyUserPagetable dst).leaf (s.root parent) v =
      forked (s.mem.leaf (s.root parent) v) := by
    have heq := hc.leaf _ h.root v hv
    rw [if_pos ⟨rfl, mem_presentPages.mpr ⟨hv, hp⟩⟩] at heq
    rw [← heq, leaf_of_words (destroyUserPagetable_words m₁ dst)]
  rw [hleaf, present_forked, frameOf_forked, destroyUserPagetable_words]
  exact ⟨hp, rfl, hc.page _ (h.kept hv hp)⟩

/-- The two conditions under which the copy can be taken back, as the caller sees them. -/
theorem Sound.fits_iff (h : Sound s res R K parent) {m₁ : Memory} {dst : Nat}
    (hc : Cloned res R K s.mem m₁ (s.root parent) dst) :
    ((∀ f, s.mem.uses R K f + shares s.mem (s.root parent) f < 65536) ∧
        ∀ v ∈ lost m₁ dst (presentPages s.mem (s.root parent)),
          owned (s.mem.leaf (s.root parent) v) = none) ↔
      (∀ f, 0 < shares s.mem (s.root parent) f →
        s.mem.pmm.refcount f + shares s.mem (s.root parent) f < 65536) ∧
      ∀ v < userPages, owned (s.mem.leaf (s.root parent) v) ≠ none →
        (tablesUpTo s.mem (s.root parent) v).card < s.mem.freeCount := by
  have hstored : ∀ f, 0 < shares s.mem (s.root parent) f →
      s.mem.pmm.refcount f = s.mem.uses R K f := by
    intro f hf
    obtain ⟨v, hv, ho⟩ := shares_pos.mp hf
    obtain ⟨hlt, hres⟩ := h.accounted.range f (uses_pos_of_leaf h.root hv ho)
    rw [h.accounted.refcount_mod hlt hres, Nat.mod_eq_of_lt (h.low f)]
  refine and_congr ⟨fun hfit f hf => ?_, fun hfit f => ?_⟩ ⟨fun hnone v hv ho => ?_, ?_⟩
  · rw [hstored f hf]
    exact hfit f
  · rcases Nat.eq_zero_or_pos (shares s.mem (s.root parent) f) with hz | hpos
    · rw [hz]
      exact h.low f
    · rw [← hstored f hpos]
      exact hfit f hpos
  · by_contra hlt
    refine ho (hnone v (hc.mem_lost.mpr ⟨mem_presentPages.mpr ⟨hv, ?_⟩, ?_⟩))
    · obtain ⟨f, hf⟩ := Option.ne_none_iff_exists'.mp ho
      exact (owned_eq_some.mp hf).1.1
    · rw [← h.accounted.freeCount_eq]
      exact Nat.le_of_not_lt hlt
  · intro hroom v hv
    obtain ⟨hpres, hle⟩ := hc.mem_lost.mp hv
    rw [← h.accounted.freeCount_eq] at hle
    by_contra ho
    have := hroom v (mem_presentPages.mp hpres).1 ho
    omega

section

variable (h : Sound s res R K parent) (hflags : flags &&& Kernel.cloneVm = 0)
  (childStack : Nat) (room : Bool) (chunk : Nat)

include h hflags

/-- Without a free frame nothing is started. -/
theorem Sound.clone_refused (hzero : s.mem.freeCount = 0) :
    AllOrNothing s parent (s.cloneProcess parent flags childStack room chunk) := by
  have hempty : freeFrames s.mem res R K = ∅ := by
    rw [← card_eq_zero, ← h.accounted.freeCount_eq]
    exact hzero
  unfold System.cloneProcess AllOrNothing
  rcases h.accounted.cloneCalls h.root room chunk with
    ⟨hcalls, -⟩ | ⟨-, -, -, -, -, hne, -⟩ | ⟨_, _, _, _, _, _, -, -, -, -, -, -, -, hle⟩
  · rw [hcalls]
    obtain ⟨hnone, hprocs, hpipes⟩ := cloneProcess_refused s.kernel parent childStack hflags
      (show (⟨none, none, none, none⟩ : Kernel.CloneAnswer).stack = none from rfl)
    rw [hnone]
    exact ⟨⟨rfl, fun _ _ => rfl, fun _ _ => rfl⟩, fun p => by rw [hprocs], hpipes,
      fun _ _ hp => ⟨hp, rfl, rfl⟩⟩
  · rw [hempty] at hne
    exact absurd hne not_nonempty_empty
  · rw [hempty, card_empty] at hle
    unfold framesNeeded at hle
    omega

/-- With frames enough the child has all pages. -/
theorem Sound.clone_whole (hfull : framesNeeded s.mem (s.root parent) room ≤ s.mem.freeCount) :
    AllOrNothing s parent (s.cloneProcess parent flags childStack room chunk) := by
  rw [h.accounted.freeCount_eq] at hfull
  unfold System.cloneProcess AllOrNothing
  rcases h.accounted.cloneCalls h.root room chunk with
    ⟨-, hempty⟩ | ⟨-, -, -, -, -, -, hlt⟩ |
      ⟨m₁, dst, p, n, slab, stack, hcalls, hc, hwhole, -, -, -⟩
  · rw [hempty, card_empty] at hfull
    unfold framesNeeded at hfull
    omega
  · omega
  · obtain ⟨hsome, hcr3⟩ := cloneProcess_child s.kernel parent childStack (dst * pageSize) chunk
      (stack * pageSize) hflags
    rw [hcalls, hsome]
    intro v hv
    unfold System.root
    rw [hcr3, mul_pageSize_div]
    refine (hc.child v hv).trans ?_
    rw [hwhole, sdiff_empty]
    exact if_congr (mem_presentPages.trans (and_iff_right hv)) rfl rfl

/-- With too few frames for everything the copy is destroyed again. -/
theorem Sound.clone_short (hpos : 0 < s.mem.freeCount)
    (hlt : s.mem.freeCount < framesNeeded s.mem (s.root parent) room) :
    AllOrNothing s parent (s.cloneProcess parent flags childStack room chunk) ↔
      (∀ f, 0 < shares s.mem (s.root parent) f →
        s.mem.pmm.refcount f + shares s.mem (s.root parent) f < 65536) ∧
      ∀ v < userPages, owned (s.mem.leaf (s.root parent) v) ≠ none →
        (tablesUpTo s.mem (s.root parent) v).card < s.mem.freeCount := by
  unfold System.cloneProcess AllOrNothing
  dsimp only
  rcases h.accounted.cloneCalls h.root room chunk with
    ⟨-, hempty⟩ | ⟨m₁, dst, hmem, hstack, hc, -, -⟩ |
      ⟨_, _, _, _, _, _, -, -, -, -, -, -, -, hle⟩
  · rw [h.accounted.freeCount_eq, hempty, card_empty] at hpos
    omega
  · obtain ⟨hnone, hprocs, hpipes⟩ :=
      cloneProcess_refused s.kernel parent childStack hflags hstack
    rw [hnone, hmem, ← h.fits_iff hc, ← hc.undone_iff h.accounted h.root h.low]
    exact h.untouched_iff hc hprocs hpipes
  · rw [← h.accounted.freeCount_eq] at hle
    omega

/-- `clone_process` without `CLONE_VM` hands out a full copy or leaves everything as it was exactly
if `CloneFits`. -/
theorem clone_all_or_nothing_iff :
    AllOrNothing s parent (s.cloneProcess parent flags childStack room chunk) ↔
      CloneFits s parent room := by
  unfold CloneFits
  rcases Nat.eq_zero_or_pos s.mem.freeCount with hzero | hpos
  · exact iff_of_true (h.clone_refused hflags childStack room chunk hzero) (.inl hzero)
  · rcases Nat.lt_or_ge s.mem.freeCount (framesNeeded s.mem (s.root parent) room) with hlt | hge
    · rw [or_iff_right (Nat.ne_of_gt hpos), or_iff_right (Nat.not_le_of_lt hlt)]
      exact h.clone_short hflags childStack room chunk hpos hlt
    · exact iff_of_true (h.clone_whole hflags childStack room chunk hge) (.inr (.inl hge))

end

/-! ### A process with one page -/

/-- A process with the page at `0x400000`. -/
def oneProcess (bytes : Nat) : System where
  kernel :=
    { Kernel.initScheduler .blank with
      procs := Function.update (Kernel.initScheduler .blank).procs 1
        { Process.zero with pid := 1, cr3 := (onePage bytes 1024).2 * pageSize } }
  mem := (onePage bytes 1024).1

theorem oneProcess_root (bytes : Nat) : (oneProcess bytes).root 1 = (onePage bytes 1024).2 := by
  unfold System.root oneProcess
  dsimp only
  rw [Function.update_self]
  exact mul_pageSize_div _

/-- The frames of the process are counted, and how many are free. -/
theorem oneProcess_sound {bytes : Nat} (hb : 0 < bytes) (hsmall : 8 * bytes ≤ 2 ^ 40) :
    Sound (oneProcess bytes) onlyZero {(onePage bytes 1024).2} 0 1 ∧
      presentPages (oneProcess bytes).mem ((oneProcess bytes).root 1) = {1024} ∧
      owned ((oneProcess bytes).mem.leaf ((oneProcess bytes).root 1) 1024) ≠ none ∧
      (oneProcess bytes).mem.freeCount + 6 = 8 * bytes := by
  have hv : 1024 < userPages := by decide
  obtain ⟨f, hf, hacc, hleaf, hcard, -⟩ := onePage_spec hb hsmall hv
  have hroot := oneProcess_root bytes
  have hmem : (oneProcess bytes).mem = (onePage bytes 1024).1 := rfl
  generalize oneProcess bytes = s at *
  rw [← hmem, ← hroot] at hacc hleaf hcard
  have howned := owned_single hf hleaf
  have hsound : Sound s onlyZero {s.root 1} 0 1 := by
    refine ⟨hacc, fun g => ?_, mem_singleton_self _, fun u hu hp hn => ?_⟩
    · exact Nat.lt_of_le_of_lt (uses_le_one hacc howned g) (by decide)
    · rw [flags_single hf hleaf (by decide) (by decide) u hu] at hn
      cases hn
  rw [← hroot]
  refine ⟨hsound, presentPages_single hf hleaf hv, ?_, ?_⟩
  · rw [howned 1024 hv, if_pos rfl]
    exact nofun
  · rw [hsound.accounted.freeCount_eq]
    exact hcard

theorem clone_all_or_nothing_iff_oneProcess :
    AllOrNothing (oneProcess 2) 1 ((oneProcess 2).cloneProcess 1 0 0 true 0) ↔
      CloneFits (oneProcess 2) 1 true :=
  clone_all_or_nothing_iff (oneProcess_sound (by decide) (by decide)).1 (by decide) 0 true 0

/-- With two frames left for a process of one page, the reference that a fork has taken to
the page stays. -/
theorem Sound.clone_onePage {v : Nat} (h : Sound s res R K parent)
    (hflags : flags &&& Kernel.cloneVm = 0)
    (hpages : presentPages s.mem (s.root parent) = {v})
    (howned : owned (s.mem.leaf (s.root parent) v) ≠ none) (hfree : s.mem.freeCount = 2) :
    ¬AllOrNothing s parent (s.cloneProcess parent flags childStack room chunk) := by
  have hv : v < userPages := by
    have hmem : v ∈ presentPages s.mem (s.root parent) := by
      rw [hpages]
      exact mem_singleton_self v
    exact (mem_presentPages.mp hmem).1
  have hneeded : 5 ≤ framesNeeded s.mem (s.root parent) room := by
    unfold framesNeeded
    rw [hpages, singleton_biUnion, card_wayTo]
    omega
  have hway : tablesUpTo s.mem (s.root parent) v = wayTo v := by
    unfold tablesUpTo
    rw [hpages, filter_singleton, if_pos (Nat.le_refl v), singleton_biUnion]
  rw [h.clone_short hflags childStack room chunk (by omega) (by omega)]
  rintro ⟨-, hroom⟩
  have hlt := hroom v hv howned
  rw [hway, card_wayTo] at hlt
  omega

theorem twoFramesLeft_leaks :
    (∃ res R K, Sound (oneProcess 1) res R K 1) ∧
      ¬AllOrNothing (oneProcess 1) 1 ((oneProcess 1).cloneProcess 1 0 0 true 0) := by
  obtain ⟨hsound, hpages, howned, hfree⟩ := oneProcess_sound Nat.zero_lt_one (by decide)
  exact ⟨⟨_, _, _, hsound⟩,
    hsound.clone_onePage (by decide) hpages howned (Nat.add_right_cancel hfree)⟩

end

end System

end Aeryk.Vm
