import Aeryk.Vm.Threads

/-!
# The frame buffer in one address space

`SYS_fbmap` gives the frame buffer to one process at a time: the lock names a process, and is free
again once that process has died.  But what is mapped belongs to an address space, and the
processes made with `CLONE_VM` still have it when the owner is gone.  So two address spaces can
come to hold the frame buffer.  Nothing else leads there, as long as the ranges of the calls stay
in the user half: a space with a page of the frame buffer, used by a process that is not dead, is
the space of the owner.
-/

namespace Aeryk.Vm

open Finset Lib Mem Memory

/-- The address space has a page of the frame buffer. -/
def HoldsFb (m : Memory) (r : Nat) : Prop :=
  ∃ v < userPages, isSet (m.leaf r v) ptePresent = true ∧ isSet (m.leaf r v) pteNopmm = true

namespace Machine

/-- The address space that a process which is not dead uses. -/
def space (s : Machine) (pid : Nat) : Option Nat := (s.live pid).map fun t => t.task.cr3

/-- At most one address space in use holds the frame buffer. -/
def Exclusive (s : Machine) : Prop :=
  ∀ p q r r', s.space p = some r → s.space q = some r' → HoldsFb s.mem r → HoldsFb s.mem r' →
    r = r'

/-- The ranges are in the user half, and the owner of the frame buffer does not die while its
address space holds it and another process uses that space. -/
def FbSafe (fb : FrameBuffer) (s : Machine) (op : Op) : Prop :=
  InHalf fb s op ∧
    (op = .exit op.pid ∨ op = .kill op.pid → s.owner.has = true → s.owner.pid = op.pid →
      ∀ r, s.space op.pid = some r → HoldsFb s.mem r → ∀ q, s.space q = some r → q = op.pid)

/-- The frames are accounted for, and no address space holds the frame buffer yet. -/
structure Started (res : Nat → Bool) (R : Finset Nat) (s : Machine) : Prop where
  ok : Ok res R s
  unheld : ∀ r ∈ R, ¬HoldsFb s.mem r

section

variable {m m' : Memory} {res : Nat → Bool} {R : Finset Nat} {fb : FrameBuffer}
  {s s' : Machine} {op : Op} {pid p r : Nat} {t t' : Thread} {ops : List Op} {S : Set Nat}
  {P : Word → Prop}

/-! ## The invariant -/

/-- An address space in use that holds the frame buffer is the owner's. -/
def Owned (s : Machine) : Prop :=
  ∀ p r, s.space p = some r → HoldsFb s.mem r →
    s.owner.has = true ∧ s.space s.owner.pid = some r

theorem Owned.exclusive (h : Owned s) : Exclusive s := by
  intro p q r r' hp hq hr hr'
  have hown := (h p r hp hr).2
  rw [(h q r' hq hr').2] at hown
  exact (Option.some.inj hown).symm

theorem space_of_live (h : s.live pid = some t) : s.space pid = some t.task.cr3 := by
  unfold space
  rw [h]
  rfl

theorem space_eq_some : s.space pid = some r ↔ ∃ t, s.live pid = some t ∧ t.task.cr3 = r := by
  unfold space
  rw [Option.map_eq_some_iff]

theorem space_put : (s.put pid t).space p =
    if p = pid then (if t.dead then none else some t.task.cr3) else s.space p := by
  unfold space live
  rw [put_threads]
  split
  · cases hd : t.dead with
    | true => simp [hd]
    | false => simp [hd]
  · rfl

/-- A process that is stored again with its address space. -/
theorem space_put_same {owner : FbOwner} {task : Task} {counted : Bool}
    (hlive : s.live pid = some t) (hcr3 : task.cr3 = t.task.cr3) :
    ({ s with mem := m', owner }.put pid { t with task, counted }).space = s.space := by
  funext p
  rw [space_put, (live_eq_some.mp hlive).2, hcr3]
  split
  next heq => rw [heq, space_of_live hlive, if_neg Bool.false_ne_true]
  · rfl

/-- A page of the frame buffer that was not there before is one of the pages that changed. -/
theorem holdsFb_of_touched (h : Touched R m m' r S P) {r' : Nat} (hr' : r' ∈ R)
    (hheld : HoldsFb m' r') :
    HoldsFb m r' ∨ (r' = r ∧ ∃ w, P w ∧ isSet w ptePresent = true ∧ isSet w pteNopmm = true) := by
  obtain ⟨v, hv, hp, hn⟩ := hheld
  rcases h r' hr' v hv with heq | ⟨hrr, -, hP⟩
  · rw [heq] at hp hn
    exact .inl ⟨v, hv, hp, hn⟩
  · exact .inr ⟨hrr, _, hP, hp, hn⟩

theorem holdsFb_of_words (h : m'.words = m.words) : HoldsFb m' r ↔ HoldsFb m r := by
  unfold HoldsFb Memory.leaf Memory.word
  rw [h]

/-- A step keeps the invariant. -/
theorem Owned.step (h : Ok res R s) (howned : Owned s) (hsafe : FbSafe fb s op) :
    Owned (step fb s op).1 := by
  obtain ⟨-, hout⟩ := step_outcome h hsafe.1
  have hR : ∀ {p r}, s.space p = some r → r ∈ R := by
    intro p r hp
    obtain ⟨t, hlive, rfl⟩ := space_eq_some.mp hp
    exact h.space p t (live_eq_some.mp hlive).1
  generalize (Machine.step fb s op).1 = s' at *
  generalize (Machine.step fb s op).2 = rax at *
  cases hout with
  | idle => exact howned
  | @mapped _ _ _ _ _ t _ task _ hlive htouched htask =>
    intro p r hp hheld
    have hcr3 : task.cr3 = t.task.cr3 := by
      rcases htask with ⟨rfl, -⟩ | rfl
      · rfl
      · rfl
    rw [space_put_same hlive hcr3] at hp ⊢
    rcases holdsFb_of_touched htouched (hR hp) hheld with hold | ⟨-, w, hw, -, hn⟩
    · exact howned p r hp hold
    · rw [hw] at hn
      cases hn
  | unmapped hlive htouched =>
    intro p r hp hheld
    rcases holdsFb_of_touched htouched (hR hp) hheld with hold | ⟨-, w, hw, hpresent, -⟩
    · exact howned p r hp hold
    · rw [hw] at hpresent
      cases hpresent
  | fbmapped hlive hfree htouched =>
    -- whoever had the frame buffer before was the caller itself
    intro p r hp hheld
    have hpid := (h.pid _ _ (live_eq_some.mp hlive).1).1
    rw [space_put_same hlive (by rfl)] at hp ⊢
    refine ⟨rfl, ?_⟩
    rw [put_owner, hpid, space_of_live hlive]
    rcases holdsFb_of_touched htouched (hR hp) hheld with hold | ⟨rfl, -⟩
    · obtain ⟨hhas, hspace⟩ := howned p r hp hold
      rw [hfree hhas, hpid, space_of_live hlive] at hspace
      exact hspace
    · rfl
  | noClone hlive hwords =>
    intro p r hp hheld
    rw [space_put_same hlive (by rfl)] at hp ⊢
    exact howned p r hp ((holdsFb_of_words hwords).mp hheld)
  | @cloned pid stack roomCounter room t m' _ hlive hwords =>
    intro p r hp hheld
    have hspace : ∀ q, ({ s with mem := m' }.put pid { t with counted := true }).space q =
        s.space q := fun q => congrFun (space_put_same hlive (by rfl)) q
    -- the child is not the owner, for it is new
    have hnew : s.space s.nextPid = none := by
      rw [← Option.not_isSome_iff_eq_none, Option.isSome_iff_exists]
      rintro ⟨r', hr'⟩
      obtain ⟨u, hu, -⟩ := space_eq_some.mp hr'
      exact Nat.lt_irrefl _ (h.pid _ _ (live_eq_some.mp hu).1).2
    have hstep : ∀ q, ({ ({ s with mem := m' }.put pid { t with counted := true }).put s.nextPid
          ⟨{ t.task with pid := s.nextPid, kernelStack := stack }, true, false⟩ with
        nextPid := s.nextPid + 1 } : Machine).space q =
        if q = s.nextPid then some t.task.cr3 else s.space q := by
      intro q
      rw [← hspace q]
      exact space_put
    have hheld' := (holdsFb_of_words hwords).mp hheld
    have howner : s.owner.has = true ∧ s.space s.owner.pid = some r := by
      rw [hstep] at hp
      split at hp
      · obtain rfl := Option.some.inj hp
        exact howned pid _ (space_of_live hlive) hheld'
      · exact howned p r hp hheld'
    refine ⟨howner.1, ?_⟩
    rw [hstep]
    split
    next heq =>
      have hold := howner.2
      rw [show s.owner.pid = s.nextPid from heq, hnew] at hold
      cases hold
    · exact howner.2
  | @died _ t _ hlive hend =>
    intro p r hp hheld
    have hpid := (h.pid _ _ (live_eq_some.mp hlive).1).1
    have hstep : ∀ q, (s.die op.pid t).space q = if q = op.pid then none else s.space q :=
      fun q => space_put
    rw [hstep] at hp
    split at hp
    · cases hp
    next hne =>
      obtain ⟨hhas, hspace⟩ := howned p r hp hheld
      -- if the owner dies, nobody else uses the space
      have hother : s.owner.pid ≠ op.pid := by
        intro heq
        rw [heq] at hspace
        exact hne (hsafe.2 hend hhas heq r hspace hheld p hp)
      have howner : (s.die op.pid t).owner = s.owner := by
        unfold die FbOwner.release
        rw [put_owner, hpid, if_neg fun hc => hother hc.2]
      rw [howner, hstep, if_neg hother]
      exact ⟨hhas, hspace⟩

/-- In every run whose steps are safe, at most one address space in use holds the frame buffer,
at any time. -/
theorem framebuffer_exclusive (h : Started res R s)
    (hsafe : Along (FbSafe fb) (fun s op => (Machine.step fb s op).1) s ops) {first : List Op}
    (hfirst : first <+: ops) : Exclusive (s.run fb first) := by
  have hstart : Owned s := by
    intro p r hp hheld
    obtain ⟨t, hlive, rfl⟩ := space_eq_some.mp hp
    exact absurd hheld (h.unheld _ (h.ok.space p t (live_eq_some.mp hlive).1))
  have hinv := hsafe.always (I := fun s => Ok res R s ∧ Owned s)
    (fun s op hs hop => ⟨hs.1.step hop.1, Owned.step hs.1 hs.2 hop⟩) ⟨h.ok, hstart⟩ hfirst
  exact hinv.2.exclusive

end

end Machine

/-! ## An owner that dies before its threads -/

section

variable {m : Memory} {res : Nat → Bool} {R : Finset Nat} {fb : FrameBuffer} {r r' va phys : Nat}

/-- With four free frames a page of the frame buffer is mapped. -/
theorem Sound.mapPage_room (h : Sound m res R) (phys : Nat) (hr : r ∈ R)
    (hv : pageOf va < userPages) (hroom : 3 < m.freeCount) :
    (m.mapPage r va phys fbFlags).leaf r (pageOf va) = entry phys fbFlags ∧
      m.freeCount ≤ (m.mapPage r va phys fbFlags).freeCount + 3 := by
  obtain ⟨K, hacc, -⟩ := h
  have hnone : one (owned (entry phys fbFlags)) = 0 := by
    rw [owned_of_nopmm fbFlags_nopmm, one_none]
  have hstart : Accounted m res R (K + one (owned (entry phys fbFlags))) := by
    rw [hnone, add_zero]
    exact hacc
  have hcount := hstart.freeCount_eq
  have hway := card_wayTo (pageOf va)
  rcases hstart.mapPage hr hv with hm | hm
  · have hleft := hm.walked.room
    have htables := (card_le_card hm.walked.within).trans (card_union_le _ _)
    rw [hm.accounted.freeCount_eq]
    refine ⟨?_, by omega⟩
    rw [hm.leaf r hr _ hv, if_pos ⟨rfl, rfl⟩]
  · have hleft := hm.walked.room
    have htables := (card_le_card hm.walked.within).trans (card_union_le _ _)
    rw [hm.full, card_empty] at hleft
    omega

/-- `pmm_alloc_page` with a frame left. -/
theorem Sound.alloc_room (h : Sound m res R) (hroom : 0 < m.freeCount) :
    m.alloc.2 ≠ 0 ∧ m.alloc.1.freeCount + 1 = m.freeCount := by
  obtain ⟨K, hacc, -⟩ := h
  have hcount := hacc.freeCount_eq
  rcases hacc.alloc_frame with ⟨f, hpos, hphys, -, hf, hacc', hfree⟩ | ⟨-, -, hfull⟩
  · have hcard := congrArg card hfree
    rw [card_erase_of_mem hf, ← hacc'.freeCount_eq, ← hcount] at hcard
    refine ⟨?_, by omega⟩
    rw [hphys]
    exact Nat.ne_of_gt (Nat.mul_pos hpos (by decide))
  · rw [hfull, card_empty] at hcount
    omega

/-- Two processes, each with an address space of its own. -/
def pair (m : Memory) (r r' : Nat) : Machine where
  mem := m
  threads pid :=
    if pid = 1 then some ⟨⟨1, r, 0, 0, 0, mmapBase⟩, false, false⟩
    else if pid = 2 then some ⟨⟨2, r', 0, 0, 0, mmapBase⟩, false, false⟩
    else none
  nextPid := 3
  owner := ⟨false, 0⟩

/-- The first process maps the frame buffer, makes a thread and exits.  Then the second one maps
it. -/
def handover : List Op := [.fbmap 1 true, .clone 1 true true, .exit 1, .fbmap 2 true]

/-- One page of the frame buffer. -/
theorem mapFramebuffer_one (m : Memory) (r base phys : Nat) :
    mapFramebuffer m r base phys 1 = m.mapPage r (base % 2 ^ 64) (phys % 2 ^ 64) fbFlags := rfl

namespace Machine

variable {s : Machine} {pid : Nat} {t : Thread}

/-- `SYS_fbmap` by a process that nobody is in the way of. -/
theorem step_fbmap (fb : FrameBuffer) (hlive : s.live pid = some t) (hfree : s.owner.has = false)
    (copied : Bool) :
    (step fb s (.fbmap pid copied)).1 =
      { s with
        mem := mapFramebuffer s.mem t.task.cr3 t.task.mmapNext fb.physBase (pagesOf fb.size)
        owner := ⟨true, t.task.pid⟩ }.put pid { t with task := bump t.task (pagesOf fb.size) } := by
  unfold step
  rw [show (Op.fbmap pid copied).pid = pid from rfl, hlive]
  dsimp only
  unfold sysFbmap
  rw [if_neg fun hc => Bool.false_ne_true (hfree.symm.trans hc.1)]
  rfl

/-- `clone` where slabs have room and there is a page for the stack. -/
theorem step_clone (fb : FrameBuffer) (hlive : s.live pid = some t) (hstack : s.mem.alloc.2 ≠ 0) :
    (step fb s (.clone pid true true)).1 =
      { ({ s with mem := s.mem.alloc.1 }.put pid { t with counted := true }).put s.nextPid
          ⟨{ t.task with pid := s.nextPid, kernelStack := s.mem.alloc.2 / pageSize }, true, false⟩
        with nextPid := s.nextPid + 1 } := by
  have hcalls : s.mem.cloneVmCalls t.counted true true =
      (s.mem.alloc.1, true, some s.mem.alloc.2) := by
    have hroom : s.mem.kmallocPage true = (s.mem, some none) := rfl
    unfold Memory.cloneVmCalls
    rw [hroom, ite_self]
    dsimp only
    rw [hroom]
    dsimp only
    rw [if_neg hstack]
  unfold step
  rw [show (Op.clone pid true true).pid = pid from rfl, hlive]
  dsimp only
  unfold cloneVm
  rw [hcalls]

theorem step_exit (fb : FrameBuffer) (hlive : s.live pid = some t) :
    (step fb s (.exit pid)).1 = s.die pid t := by
  unfold step
  rw [show (Op.exit pid).pid = pid from rfl, hlive]

end Machine

/-- What is left of the address spaces after the handover. -/
theorem pair_run (r' : Nat)
    (hstack : (m.mapPage r (mmapBase % 2 ^ 64) (phys % 2 ^ 64) fbFlags).alloc.2 ≠ 0) :
    ((pair m r r').run ⟨phys, pageSize⟩ handover).space 3 = some r ∧
      ((pair m r r').run ⟨phys, pageSize⟩ handover).space 2 = some r' ∧
      ((pair m r r').run ⟨phys, pageSize⟩ handover).mem =
        (m.mapPage r (mmapBase % 2 ^ 64) (phys % 2 ^ 64) fbFlags).alloc.1.mapPage r'
          (mmapBase % 2 ^ 64) (phys % 2 ^ 64) fbFlags := by
  have hone : pagesOf pageSize = 1 := by decide
  have hlive : (pair m r r').live 1 = some ⟨⟨1, r, 0, 0, 0, mmapBase⟩, false, false⟩ := rfl
  have h₁ := Machine.step_fbmap ⟨phys, pageSize⟩ hlive rfl true
  rw [hone, mapFramebuffer_one] at h₁
  generalize hs₁ : (Machine.step ⟨phys, pageSize⟩ (pair m r r') (.fbmap 1 true)).1 = s₁ at h₁
  have hlive₁ : s₁.live 1 = some ⟨Machine.bump ⟨1, r, 0, 0, 0, mmapBase⟩ 1, false, false⟩ := by
    rw [h₁]
    rfl
  have hmem₁ : s₁.mem = m.mapPage r (mmapBase % 2 ^ 64) (phys % 2 ^ 64) fbFlags := by
    rw [h₁]
    rfl
  have hother₁ : s₁.live 2 = some ⟨⟨2, r', 0, 0, 0, mmapBase⟩, false, false⟩ ∧ s₁.nextPid = 3 ∧
      s₁.owner = ⟨true, 1⟩ := by
    rw [h₁]
    exact ⟨rfl, rfl, rfl⟩
  rw [← hmem₁] at hstack ⊢
  have h₂ := Machine.step_clone ⟨phys, pageSize⟩ hlive₁ hstack
  generalize hs₂ : (Machine.step ⟨phys, pageSize⟩ s₁ (.clone 1 true true)).1 = s₂ at h₂
  obtain ⟨hlive₂, hnext, howner⟩ := hother₁
  rw [hnext] at h₂
  have hparent : s₂.live 1 = some ⟨Machine.bump ⟨1, r, 0, 0, 0, mmapBase⟩ 1, true, false⟩ := by
    rw [h₂]
    rfl
  have h₃ := Machine.step_exit ⟨phys, pageSize⟩ hparent
  generalize hs₃ : (Machine.step ⟨phys, pageSize⟩ s₂ (.exit 1)).1 = s₃ at h₃
  have hlive₃ : s₃.live 2 = some ⟨⟨2, r', 0, 0, 0, mmapBase⟩, false, false⟩ := by
    rw [h₃, h₂]
    exact hlive₂
  have hfree : s₃.owner.has = false := by
    rw [h₃, h₂]
    unfold Machine.die FbOwner.release
    rw [Machine.put_owner]
    dsimp only [Machine.put]
    rw [howner]
    rfl
  have hmem₃ : s₃.mem = s₁.mem.alloc.1 := by
    rw [h₃, h₂]
    rfl
  have hspace₃ : s₃.space 3 = some r := by
    rw [h₃, h₂]
    rfl
  have h₄ := Machine.step_fbmap ⟨phys, pageSize⟩ hlive₃ hfree true
  rw [hone, mapFramebuffer_one, hmem₃] at h₄
  have hrun : (pair m r r').run ⟨phys, pageSize⟩ handover =
      (Machine.step ⟨phys, pageSize⟩ s₃ (.fbmap 2 true)).1 := by
    rw [← hs₃, ← hs₂, ← hs₁]
    rfl
  rw [hrun, h₄, Machine.space_put_same hlive₃ (by rfl)]
  exact ⟨hspace₃, Machine.space_of_live hlive₃, rfl⟩

/-- The thread still has the frame buffer when the second process gets it. -/
theorem pair_handover (h : Sound m res R) (hr : r ∈ R) (hr' : r' ∈ R) (hne : r ≠ r')
    (hroom : 8 ≤ m.freeCount) (phys : Nat) :
    ¬((pair m r r').run ⟨phys, pageSize⟩ handover).Exclusive := by
  have hbase : pageOf (mmapBase % 2 ^ 64) < userPages := by decide
  -- the first process maps the frame buffer and makes a thread
  obtain ⟨hsound₁, -⟩ := h.mapPage (phys % 2 ^ 64) hr hbase fbFlags_nopmm
  obtain ⟨hleaf₁, hroom₁⟩ := h.mapPage_room (phys % 2 ^ 64) hr hbase (by omega)
  obtain ⟨hstack, hroom₂⟩ := hsound₁.alloc_room (by omega)
  obtain ⟨hspace, hspace', hmem⟩ := pair_run r' hstack
  -- the second process maps the frame buffer
  obtain ⟨-, htouched⟩ := hsound₁.alloc.mapPage (phys % 2 ^ 64) hr' hbase fbFlags_nopmm
  obtain ⟨hleaf', -⟩ := hsound₁.alloc.mapPage_room (phys % 2 ^ 64) hr' hbase (by omega)
  have hbits : isSet (entry (phys % 2 ^ 64) fbFlags) ptePresent = true ∧
      isSet (entry (phys % 2 ^ 64) fbFlags) pteNopmm = true := by
    unfold entry
    rw [isSet_or, isSet_or, show isSet fbFlags ptePresent = true by decide, fbFlags_nopmm]
    exact ⟨Bool.or_true _, Bool.or_true _⟩
  intro hexcl
  have hheld : HoldsFb ((pair m r r').run ⟨phys, pageSize⟩ handover).mem r := by
    refine ⟨_, hbase, ?_⟩
    rcases htouched r hr _ hbase with heq | ⟨heq, -⟩
    · have hleaf : ∀ n : Memory, n.alloc.1.leaf r (pageOf (mmapBase % 2 ^ 64)) =
          n.leaf r (pageOf (mmapBase % 2 ^ 64)) := fun _ => rfl
      rw [hmem, heq, hleaf, hleaf₁]
      exact hbits
    · exact absurd heq hne
  have hheld' : HoldsFb ((pair m r r').run ⟨phys, pageSize⟩ handover).mem r' := by
    refine ⟨_, hbase, ?_⟩
    rw [hmem, hleaf']
    exact hbits
  exact hne (hexcl 3 2 r r' hspace hspace' hheld hheld')

/-- Two address spaces in fresh memory, and their roots. -/
def twoSpaces (bytes : Nat) : Memory × Nat × Nat :=
  match (freshMemory bytes).newUserPagetable with
  | (m, none) => (m, 0, 0)
  | (m, some r) =>
    match m.newUserPagetable with
    | (m, none) => (m, r, 0)
    | (m, some r') => (m, r, r')

/-- A new address space. -/
theorem Sound.newUserPagetable (h : Sound m res R) (hroom : 0 < m.freeCount) :
    ∃ m' f, m.newUserPagetable = (m', some f) ∧ f ∉ R ∧ Sound m' res (insert f R) ∧
      EmptyHalf m' f ∧ SameTables m m' R ∧ m'.freeCount + 1 = m.freeCount := by
  obtain ⟨K, hacc, hlt⟩ := h
  have hcount := hacc.freeCount_eq
  rcases hacc.newUserPagetable with ⟨m', f, heq, hnew⟩ | ⟨-, hfull⟩
  · have hcard := hnew.card_free
    rw [← hnew.accounted.freeCount_eq] at hcard
    refine ⟨m', f, heq, hnew.fresh, ⟨K, hnew.accounted, fun g => ?_⟩, hnew.empty, hnew.same,
      by omega⟩
    have := hlt g
    have hunused := hnew.unused.1
    rw [hnew.uses, uses_single]
    split
    next hg =>
      rw [hg, hunused]
      decide
    · omega
  · rw [freeFrames_eq_empty hfull, card_empty] at hcount
    omega

/-- The two address spaces are empty. -/
theorem twoSpaces_spec (bytes : Nat) (hb : 0 < bytes) (hsmall : 8 * bytes ≤ 2 ^ 40) :
    (pair (twoSpaces bytes).1 (twoSpaces bytes).2.1 (twoSpaces bytes).2.2).Ok onlyZero
        {(twoSpaces bytes).2.2, (twoSpaces bytes).2.1} ∧
      (∀ r ∈ ({(twoSpaces bytes).2.2, (twoSpaces bytes).2.1} : Finset Nat), ∀ v < userPages,
        (twoSpaces bytes).1.leaf r v = 0#64) ∧
      (twoSpaces bytes).2.1 ≠ (twoSpaces bytes).2.2 ∧
      (twoSpaces bytes).1.freeCount + 3 = 8 * bytes := by
  have hfresh := freshMemory_accounted hb hsmall
  have hcard := freshMemory_card hb
  rw [← hfresh.freeCount_eq] at hcard
  have hsound : Sound (freshMemory bytes) onlyZero ∅ :=
    ⟨0, hfresh, fun f => by rw [freshMemory_uses]; decide⟩
  obtain ⟨m, r, heq, -, hsound₁, hempty, -, hcount⟩ := hsound.newUserPagetable (by omega)
  rw [insert_empty_eq] at hsound₁
  obtain ⟨m', r', heq', hfresh', hsound₂, hempty', hsame, hcount'⟩ :=
    hsound₁.newUserPagetable (by omega)
  have hspaces : twoSpaces bytes = (m', r, r') := by
    unfold twoSpaces
    rw [heq]
    dsimp only
    rw [heq']
  have hr : r ∈ ({r} : Finset Nat) := mem_singleton_self r
  rw [hspaces]
  dsimp only
  refine ⟨⟨hsound₂, fun pid t ht => ?_, fun pid t ht => ?_⟩, fun q hq v hv => ?_, ?_, by omega⟩
  · unfold pair at ht
    dsimp only at ht
    split at ht
    · obtain rfl := Option.some.inj ht
      exact mem_insert_of_mem hr
    · split at ht
      · obtain rfl := Option.some.inj ht
        exact mem_insert_self _ _
      · cases ht
  · unfold pair at ht ⊢
    dsimp only at ht ⊢
    split at ht
    next hpid =>
      obtain rfl := Option.some.inj ht
      exact ⟨hpid.symm, by omega⟩
    · split at ht
      next hpid =>
        obtain rfl := Option.some.inj ht
        exact ⟨hpid.symm, by omega⟩
      · cases ht
  · rcases mem_insert.mp hq with rfl | hq
    · exact hempty'.leaf hv
    · obtain rfl := mem_singleton.mp hq
      exact (hsame.leaf hr hv).trans (hempty.leaf hv)
  · rintro rfl
    exact hfresh' hr

/-- No address space without pages holds the frame buffer. -/
theorem Machine.Ok.started {s : Machine} (h : s.Ok res R)
    (hempty : ∀ r ∈ R, ∀ v < userPages, s.mem.leaf r v = 0#64) : s.Started res R := by
  refine ⟨h, fun r hr => ?_⟩
  rintro ⟨v, hv, hp, -⟩
  rw [hempty r hr v hv, isSet_zero] at hp
  cases hp

/-- The frame buffer of one page in two address spaces. -/
theorem framebuffer_shared :
    let s := pair (twoSpaces 2).1 (twoSpaces 2).2.1 (twoSpaces 2).2.2
    s.Started onlyZero {(twoSpaces 2).2.2, (twoSpaces 2).2.1} ∧
      ¬(s.run ⟨0xfd000000, pageSize⟩ handover).Exclusive := by
  obtain ⟨hok, hempty, hne, hroom⟩ := twoSpaces_spec 2 (by decide) (by decide)
  generalize twoSpaces 2 = o at *
  have hroom' : 8 ≤ o.1.freeCount := by omega
  refine ⟨hok.started hempty, pair_handover hok.sound ?_ ?_ hne hroom' 0xfd000000⟩
  · exact mem_insert_of_mem (mem_singleton_self _)
  · exact mem_insert_self _ _

theorem pair_space {q x : Nat} (h : (pair m r r').space q = some x) :
    q = 1 ∧ x = r ∨ q = 2 ∧ x = r' := by
  obtain ⟨t, hlive, rfl⟩ := Machine.space_eq_some.mp h
  have ht := (Machine.live_eq_some.mp hlive).1
  unfold pair at ht
  dsimp only at ht
  split at ht
  next hq =>
    obtain rfl := Option.some.inj ht
    exact .inl ⟨hq, rfl⟩
  · split at ht
    next hq =>
      obtain rfl := Option.some.inj ht
      exact .inr ⟨hq, rfl⟩
    · cases ht

/-- The first process may exit, for it is alone in its address space. -/
theorem pair_safe (hne : r ≠ r') (phys : Nat) :
    Along (Machine.FbSafe ⟨phys, pageSize⟩)
      (fun s op => (Machine.step ⟨phys, pageSize⟩ s op).1) (pair m r r')
      [.fbmap 1 true, .exit 1] := by
  refine ⟨⟨?_, fun hc => ?_⟩, ⟨fun _ _ => trivial, ?_⟩, trivial⟩
  · intro t ht
    obtain rfl : (⟨⟨1, r, 0, 0, 0, mmapBase⟩, false, false⟩ : Thread) = t := Option.some.inj ht
    exact show mmapBase / pageSize + pagesOf pageSize ≤ userPages by decide
  · rcases hc with hc | hc
    · cases hc
    · cases hc
  · have hlive : (pair m r r').live 1 = some ⟨⟨1, r, 0, 0, 0, mmapBase⟩, false, false⟩ := rfl
    dsimp only
    rw [Machine.step_fbmap _ hlive rfl, Machine.space_put_same hlive (by rfl)]
    intro _ _ _ x hx _ q hq
    rcases pair_space hx with ⟨-, rfl⟩ | ⟨hc, -⟩
    · rcases pair_space hq with ⟨rfl, -⟩ | ⟨-, heq⟩
      · rfl
      · exact absurd heq hne
    · exact absurd hc (by decide)

/-- The first process maps the frame buffer and exits, with no thread left. -/
theorem framebuffer_exclusive_alone :
    ((pair (twoSpaces 2).1 (twoSpaces 2).2.1 (twoSpaces 2).2.2).run ⟨0xfd000000, pageSize⟩
      [.fbmap 1 true, .exit 1]).Exclusive := by
  obtain ⟨hok, hempty, hne, -⟩ := twoSpaces_spec 2 (by decide) (by decide)
  generalize twoSpaces 2 = o at *
  exact Machine.framebuffer_exclusive (hok.started hempty) (pair_safe hne 0xfd000000)
    (List.prefix_refl _)

end

end Aeryk.Vm
