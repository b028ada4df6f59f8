import Aeryk.Vm.Break
import Aeryk.Vm.Exclusive

/-!
# Ranges handed out twice

`SYS_mmap` and `SYS_fbmap` hand out the range that starts at the caller's `mmap_next` and do not
look whether it is free.  With one process that is enough.  Processes that share an address space
have a `mmap_next` each, which `clone` copies and nothing keeps together, so the second of them
gets the range that the first has.

A run in which the caller's `mmap_next` is always the largest of its address space hands out free
ranges only, up to the first page `limit` that was mapped above all of them at the start (the user
stack, as a rule).
-/

namespace Aeryk.Vm

open Lib Mem Memory

namespace Machine

/-- The range that the call hands out has no page mapped at the moment of the call. -/
def RangeFree (fb : FrameBuffer) (s : Machine) (op : Op) : Prop :=
  ∀ t, s.live op.pid = some t → (step fb s op).2 = t.task.mmapNext →
    match op with
    | .mmap _ length _ _ _ => ∀ v ∈ pageRange t.task.mmapNext (pagesOf length),
      isSet (s.mem.leaf t.task.cr3 v) ptePresent = false
    | .fbmap _ _ => ∀ v ∈ pageRange t.task.mmapNext (pagesOf fb.size),
      isSet (s.mem.leaf t.task.cr3 v) ptePresent = false
    | _ => True

/-- No process of the address space has a larger `mmap_next`. -/
def Foremost (s : Machine) (t : Thread) : Prop :=
  ∀ q u, s.threads q = some u → u.task.cr3 = t.task.cr3 → u.task.mmapNext ≤ t.task.mmapNext

/-- Calls that hand out a range succeed, are made by a foremost process, and stay below the limit.
Ranges given back lie in the user half. -/
def Orderly (limit : Nat) (fb : FrameBuffer) (s : Machine) (op : Op) : Prop :=
  ∀ t, s.live op.pid = some t →
    match op with
    | .mmap _ length _ _ _ => (step fb s op).2 = t.task.mmapNext ∧ Foremost s t ∧
      t.task.mmapNext / pageSize + pagesOf length ≤ limit
    | .munmap _ addr length => addr < mmapBase ∨ addr / pageSize + pagesOf length ≤ userPages
    | .fbmap _ _ => Foremost s t ∧ t.task.mmapNext / pageSize + pagesOf fb.size ≤ limit
    | _ => True

/-- Every mapped page lies below the `mmap_next` of a process of its space, or not below the limit.
-/
structure Stacked (limit : Nat) (s : Machine) : Prop where
  aligned : ∀ p t, s.threads p = some t → t.task.mmapNext % pageSize = 0
  below : ∀ p t, s.threads p = some t → ∀ v < userPages,
    isSet (s.mem.leaf t.task.cr3 v) ptePresent = true →
    (∃ q u, s.threads q = some u ∧ u.task.cr3 = t.task.cr3 ∧ v < u.task.mmapNext / pageSize) ∨
      limit ≤ v

section

variable {m m' : Memory} {res : Nat → Bool} {R : Finset Nat} {fb : FrameBuffer}
  {s s' : Machine} {op : Op} {pid p r n limit : Nat} {t t' : Thread} {ops : List Op} {S : Set Nat}
  {P : Word → Prop}

theorem Orderly.inHalf (h : Orderly limit fb s op) (hlimit : limit ≤ userPages) :
    InHalf fb s op := by
  intro t ht
  have h' := h t ht
  cases op with
  | mmap pid length prot flags fd => exact h'.2.2.trans hlimit
  | munmap pid addr length => exact h'
  | fbmap pid copied => exact h'.2.trans hlimit
  | clone pid roomCounter room => trivial
  | exit pid => trivial
  | kill pid => trivial

/-- A range that starts at a foremost `mmap_next` is free. -/
theorem Stacked.free (h : Stacked limit s) (hlive : s.live pid = some t) (hfore : Foremost s t)
    (hend : t.task.mmapNext / pageSize + n ≤ limit) (hlimit : limit ≤ userPages) :
    ∀ v ∈ pageRange t.task.mmapNext n, isSet (s.mem.leaf t.task.cr3 v) ptePresent = false := by
  intro v hv
  obtain ⟨hge, hlt⟩ := Set.mem_Ico.mp hv
  rw [← Bool.not_eq_true]
  intro hp
  rcases h.below pid t (live_eq_some.mp hlive).1 v (by omega) hp with
    ⟨q, u, hq, hcr3, hbelow⟩ | hge'
  · have := Nat.div_le_div_right (c := pageSize) (hfore q u hq hcr3)
    omega
  · omega

/-- The new `mmap_next` is where the range ends. -/
theorem bump_div (task : Task) (hend : task.mmapNext / pageSize + n ≤ userPages) :
    (bump task n).mmapNext / pageSize = task.mmapNext / pageSize + n := by
  have hend' : task.mmapNext / pageSize + n ≤ 256 * 512 ^ 3 := hend
  unfold bump
  dsimp only
  unfold pageSize at *
  omega

theorem bump_mod (task : Task) (h : task.mmapNext % pageSize = 0) :
    (bump task n).mmapNext % pageSize = 0 := by
  unfold bump
  dsimp only
  unfold pageSize at *
  omega

/-- The processes keep their address spaces, and no `mmap_next` goes back. -/
structure Carried (s s' : Machine) : Prop where
  back : ∀ p u', s'.threads p = some u' → ∃ q u, s.threads q = some u ∧
    u'.task.cr3 = u.task.cr3 ∧ (u.task.mmapNext % pageSize = 0 → u'.task.mmapNext % pageSize = 0)
  forth : ∀ p u, s.threads p = some u → ∃ u', s'.threads p = some u' ∧
    u'.task.cr3 = u.task.cr3 ∧ u.task.mmapNext / pageSize ≤ u'.task.mmapNext / pageSize

/-- What a step keeps stacked: each page that is new lies below the `mmap_next` of a process. -/
theorem Stacked.carry (h : Stacked limit s) (hc : Carried s s')
    (hnew : ∀ p t, s.threads p = some t → ∀ v < userPages,
      isSet (s'.mem.leaf t.task.cr3 v) ptePresent = true →
      isSet (s.mem.leaf t.task.cr3 v) ptePresent = true ∨
        ∃ q u, s'.threads q = some u ∧ u.task.cr3 = t.task.cr3 ∧ v < u.task.mmapNext / pageSize) :
    Stacked limit s' := by
  constructor
  · intro p u' hp
    obtain ⟨q, u, hq, -, hmod⟩ := hc.back p u' hp
    exact hmod (h.aligned q u hq)
  · intro p u' hp v hv hpresent
    obtain ⟨q, u, hq, hcr3, -⟩ := hc.back p u' hp
    rw [hcr3] at hpresent ⊢
    rcases hnew q u hq v hv hpresent with hold | hbelow
    · rcases h.below q u hq v hv hold with ⟨q', w, hw, hwcr3, hlt⟩ | hge
      · obtain ⟨w', hw', hcr3', hle⟩ := hc.forth q' w hw
        exact .inl ⟨q', w', hw', hcr3'.trans hwcr3, Nat.lt_of_lt_of_le hlt hle⟩
      · exact .inr hge
    · exact .inl hbelow

/-- A process is stored again. -/
theorem carried_put {owner : FbOwner} (hlive : s.live pid = some t)
    (hcr3 : t'.task.cr3 = t.task.cr3)
    (hle : t.task.mmapNext / pageSize ≤ t'.task.mmapNext / pageSize)
    (hmod : t.task.mmapNext % pageSize = 0 → t'.task.mmapNext % pageSize = 0) :
    Carried s ({ s with mem := m', owner }.put pid t') := by
  have hold := (live_eq_some.mp hlive).1
  constructor
  · intro p u' hp
    rw [put_threads] at hp
    split at hp
    · obtain rfl := Option.some.inj hp
      exact ⟨pid, t, hold, hcr3, hmod⟩
    · exact ⟨p, u', hp, rfl, id⟩
  · intro p u hp
    rw [put_threads]
    split
    next heq =>
      rw [heq, hold] at hp
      obtain rfl := Option.some.inj hp
      exact ⟨t', rfl, hcr3, hle⟩
    · exact ⟨u, hp, rfl, Nat.le_refl _⟩

/-- Pages that are new lie in the range. -/
theorem present_of_touched (h : Touched R m m' r S P) {r' v : Nat} (hr' : r' ∈ R)
    (hv : v < userPages) (hp : isSet (m'.leaf r' v) ptePresent = true) :
    isSet (m.leaf r' v) ptePresent = true ∨ (r' = r ∧ v ∈ S ∧ P (m'.leaf r' v)) := by
  rcases h r' hr' v hv with heq | hnew
  · rw [heq] at hp
    exact .inl hp
  · exact .inr hnew

/-- A range has been handed out, and `mmap_next` moved past it. -/
theorem Stacked.bump {owner : FbOwner} (h : Stacked limit s) (hok : Ok res R s)
    (hlive : s.live pid = some t)
    (htouched : Touched R s.mem m' t.task.cr3 (pageRange t.task.mmapNext n) P)
    (hend : t.task.mmapNext / pageSize + n ≤ userPages) :
    Stacked limit ({ s with mem := m', owner }.put pid { t with task := bump t.task n }) := by
  have hdiv := bump_div t.task hend
  refine h.carry (carried_put hlive rfl (by dsimp only; omega) (bump_mod t.task)) ?_
  intro p u hp v hv hpresent
  rcases present_of_touched htouched (hok.space p u hp) hv hpresent with hold | ⟨hcr3, hin, -⟩
  · exact .inl hold
  · refine .inr ⟨pid, { t with task := Machine.bump t.task n }, ?_, hcr3.symm, ?_⟩
    · rw [put_threads, if_pos rfl]
    · dsimp only
      rw [hdiv]
      exact (Set.mem_Ico.mp hin).2

/-- A step keeps the pages stacked. -/
theorem Stacked.step (h : Stacked limit s) (hok : Ok res R s) (hlimit : limit ≤ userPages)
    (horder : Orderly limit fb s op) : Stacked limit (step fb s op).1 := by
  obtain ⟨-, hout⟩ := step_outcome hok (horder.inHalf hlimit)
  have horder' := fun t ht => horder t ht
  generalize (Machine.step fb s op).1 = s' at *
  generalize (Machine.step fb s op).2 = rax at *
  cases hout with
  | idle => exact h
  | @mapped pid length prot flags fd t _ task _ hlive htouched htask =>
    obtain ⟨hbase, -, hend⟩ := horder' t hlive
    rcases htask with ⟨-, hhigh⟩ | rfl
    · -- a call that fails does not answer with its base
      have hend' : t.task.mmapNext / pageSize + pagesOf length ≤ 256 * 512 ^ 3 :=
        hend.trans hlimit
      unfold pageSize at hend'
      omega
    · exact h.bump hok hlive htouched (hend.trans hlimit)
  | unmapped hlive htouched =>
    refine h.carry
      ⟨fun p u hp => ⟨p, u, hp, rfl, id⟩, fun p u hp => ⟨u, hp, rfl, Nat.le_refl _⟩⟩ ?_
    intro p u hp v hv hpresent
    rcases present_of_touched htouched (hok.space p u hp) hv hpresent with hold | ⟨-, -, habsent⟩
    · exact .inl hold
    · dsimp only at hpresent
      rw [habsent] at hpresent
      cases hpresent
  | fbmapped hlive _ htouched =>
    exact h.bump hok hlive htouched ((horder' _ hlive).2.trans hlimit)
  | noClone hlive hwords =>
    refine h.carry (carried_put hlive rfl (Nat.le_refl _) id) ?_
    intro p u hp v hv hpresent
    rw [put_mem, leaf_of_words hwords] at hpresent
    exact .inl hpresent
  | @cloned pid stack roomCounter room t m' _ hlive hwords =>
    have hparent : Carried s ({ s with mem := m' }.put pid { t with counted := true }) :=
      carried_put hlive rfl (Nat.le_refl _) id
    refine h.carry ⟨fun p u' hp => ?_, fun p u hp => ?_⟩ ?_
    · dsimp only at hp
      rw [put_threads] at hp
      split at hp
      · obtain rfl := Option.some.inj hp
        exact ⟨pid, t, (live_eq_some.mp hlive).1, rfl, id⟩
      · exact hparent.back p u' hp
    · dsimp only
      rw [put_threads, if_neg (Nat.ne_of_lt (hok.pid p u hp).2)]
      exact hparent.forth p u hp
    · intro p u hp v hv hpresent
      have hleaf := leaf_of_words hwords u.task.cr3 v
      exact .inl (hleaf ▸ hpresent)
  | died hlive _ =>
    refine h.carry (carried_put hlive rfl (Nat.le_refl _) id) ?_
    intro p u hp v hv hpresent
    exact .inl hpresent

/-- In every run whose calls are orderly, each range that is handed out is free. -/
theorem mappings_never_overlap (hok : Ok res R s) (h : Stacked limit s) (hlimit : limit ≤ userPages)
    (horder : Along (Orderly limit fb) (fun s op => (Machine.step fb s op).1) s ops)
    {first : List Op} (hfirst : first ++ [op] <+: ops) : RangeFree fb (s.run fb first) op := by
  obtain ⟨⟨-, hstacked⟩, horder'⟩ := horder.reaches
    (I := fun s => Ok res R s ∧ Stacked limit s)
    (fun s op hs hop => ⟨hs.1.step (hop.inHalf hlimit), hs.2.step hs.1 hlimit hop⟩)
    ⟨hok, h⟩ hfirst
  intro t hlive _
  have hcall := horder' t hlive
  cases op with
  | mmap pid length prot flags fd => exact hstacked.free hlive hcall.2.1 hcall.2.2 hlimit
  | munmap pid addr length => trivial
  | fbmap pid copied => exact hstacked.free hlive hcall.1 hcall.2 hlimit
  | clone pid roomCounter room => trivial
  | exit pid => trivial
  | kill pid => trivial

end

end Machine

/-! ## Two threads -/

section

variable {m : Memory} {res : Nat → Bool} {R : Finset Nat} {K : Nat → Nat} {fb : FrameBuffer}
  {r r' length prot flags : Nat} {fd : Int} {task : Task}

/-- `SYS_mmap` with frames for all pages and tables. -/
theorem Accounted.sysMmap_enough (h : Accounted m res R K) (prot : Nat) (hr : task.cr3 ∈ R)
    (hgood : ¬(length = 0 ∨ fd ≠ -1 ∨ flags &&& mapAnonymous = 0 ∨
      flags &&& (mapShared ||| mapPrivate) = 0))
    (hroom : task.mmapNext / pageSize + m.freeCount ≤ userPages)
    (henough : framesForAll m task.cr3 (task.mmapNext / pageSize) (pagesOf length) ≤ m.freeCount) :
    ∃ m', sysMmap m task length prot flags fd =
        (m', Machine.bump task (pagesOf length), task.mmapNext) ∧
      Filled res R K m m' task.cr3 (task.mmapNext / pageSize) (pagesOf length)
        (mmapFlags prot flags) := by
  obtain ⟨hge, hfilled⟩ := h.mapPages_enough hr (mmapFlags_page prot flags) hroom henough
  refine ⟨_, ?_, hfilled⟩
  unfold sysMmap
  rw [if_neg hgood]
  rw [if_neg hge]
  rfl

/-- A page more needs at most four frames. -/
theorem framesForAll_one_le (m : Memory) (r p : Nat) : framesForAll m r p 1 ≤ 4 := by
  unfold framesForAll
  rw [Nat.Ico_succ_singleton, Finset.singleton_biUnion]
  have hle : (wayTo p \ tables m r).card ≤ (wayTo p).card :=
    Finset.card_le_card Finset.sdiff_subset
  rw [card_wayTo] at hle
  omega

/-- The process `pid` asks for a page. -/
def askPage (pid : Nat) : Op := .mmap pid pageSize protWrite (mapPrivate ||| mapAnonymous) (-1)

theorem askPage_good : ¬(pageSize = 0 ∨ (-1 : Int) ≠ -1 ∨
    (mapPrivate ||| mapAnonymous) &&& mapAnonymous = 0 ∨
    (mapPrivate ||| mapAnonymous) &&& (mapShared ||| mapPrivate) = 0) := by decide

theorem Machine.step_mmap (fb : FrameBuffer) {s : Machine} {pid rax : Nat} {t : Thread}
    {m' : Memory} (hlive : s.live pid = some t)
    (heq : sysMmap s.mem t.task length prot flags fd = (m', task, rax)) :
    step fb s (.mmap pid length prot flags fd) =
      ({ s with mem := m' }.put pid { t with task }, rax) := by
  unfold step
  rw [show (Op.mmap pid length prot flags fd).pid = pid from rfl, hlive]
  dsimp only
  rw [heq]

/-- The process of the machine `pair` that has a thread. -/
theorem pair_clone (fb : FrameBuffer) (r r' : Nat) (hstack : m.alloc.2 ≠ 0) :
    ∃ stack, (pair m r r').run fb [.clone 1 true true] =
      { ({ pair m r r' with mem := m.alloc.1 }.put 1 ⟨⟨1, r, 0, 0, 0, mmapBase⟩, true, false⟩).put 3
          ⟨⟨3, r, stack, 0, 0, mmapBase⟩, true, false⟩ with nextPid := 4 } := by
  have hlive : (pair m r r').live 1 = some ⟨⟨1, r, 0, 0, 0, mmapBase⟩, false, false⟩ := rfl
  exact ⟨_, Machine.step_clone fb hlive hstack⟩

/-- With four free frames a process is given its page. -/
theorem Machine.step_askPage (fb : FrameBuffer) {s : Machine} {p : Nat} {t : Thread}
    (hacc : Accounted s.mem res R K) (hp : s.live p = some t) (hr : t.task.cr3 ∈ R)
    (hroom : 4 ≤ s.mem.freeCount)
    (hmany : t.task.mmapNext / pageSize + s.mem.freeCount ≤ userPages) :
    ∃ m', step fb s (askPage p) =
        ({ s with mem := m' }.put p { t with task := bump t.task 1 }, t.task.mmapNext) ∧
      Filled res R K s.mem m' t.task.cr3 (t.task.mmapNext / pageSize) 1
        (mmapFlags protWrite (mapPrivate ||| mapAnonymous)) ∧
      m'.freeCount ≤ s.mem.freeCount ∧ s.mem.freeCount ≤ m'.freeCount + 4 := by
  have hone : pagesOf pageSize = 1 := by decide
  have htables := framesForAll_one_le s.mem t.task.cr3 (t.task.mmapNext / pageSize)
  obtain ⟨m', heq, hfilled⟩ := hacc.sysMmap_enough protWrite hr askPage_good hmany
    (by rw [hone]; omega)
  rw [hone] at heq hfilled
  have hleft := hfilled.room_eq
  rw [← hacc.freeCount_eq, ← hfilled.accounted.freeCount_eq] at hleft
  unfold framesForAll at htables
  exact ⟨m', step_mmap fb hp heq, hfilled, by omega, by omega⟩

/-- Two processes with one address space and one `mmap_next` ask for a page each, and get the
same one. -/
theorem Machine.ask_twice {s : Machine} {p q : Nat} {t u : Thread} (hacc : Accounted s.mem res R K)
    (hp : s.live p = some t) (hq : s.live q = some u) (hne : q ≠ p) (hr : t.task.cr3 ∈ R)
    (hcr3 : u.task.cr3 = t.task.cr3) (hnext : u.task.mmapNext = t.task.mmapNext)
    (hroom : 8 ≤ s.mem.freeCount)
    (hmany : t.task.mmapNext / pageSize + s.mem.freeCount ≤ userPages) :
    ¬(step fb s (askPage p)).1.RangeFree fb (askPage q) := by
  -- the first gets a page
  obtain ⟨m₁, heq₁, hfilled, hfewer, hleft⟩ := step_askPage fb hacc hp hr (by omega) hmany
  have hmem : (step fb s (askPage p)).1.mem = m₁ := by
    rw [heq₁]
    rfl
  have hlive : (step fb s (askPage p)).1.live q = some u := by
    rw [heq₁, live_eq_some, put_threads, if_neg hne]
    exact live_eq_some.mp hq
  generalize (step fb s (askPage p)).1 = s₁ at *
  -- and there are frames left for the second
  obtain ⟨m₂, heq₂, -⟩ := step_askPage fb (hmem ▸ hfilled.accounted) hlive (hcr3 ▸ hr)
    (by rw [hmem]; omega) (by rw [hmem, hnext]; omega)
  have hanswer : (step fb s₁ (askPage q)).2 = u.task.mmapNext := congrArg Prod.snd heq₂
  intro hfree
  have hv : t.task.mmapNext / pageSize < userPages := by omega
  obtain ⟨f, hf, hleaf, -⟩ := hfilled.filled _ hv (Nat.le_refl _) (Nat.lt_succ_self _)
  have hsmall := Nat.lt_of_lt_of_le (mem_freeFrames.mp hf).1 hacc.small
  have hin : t.task.mmapNext / pageSize ∈ pageRange u.task.mmapNext (pagesOf pageSize) := by
    rw [hnext]
    exact Set.mem_Ico.mpr ⟨Nat.le_refl _, Nat.lt_succ_self _⟩
  have habsent := hfree u hlive hanswer _ hin
  rw [hmem, hcr3, hleaf, isSet_entry hsmall (by decide),
    (mmapFlags_page protWrite (mapPrivate ||| mapAnonymous)).present] at habsent
  cases habsent

/-- A process makes a thread, and both ask for a page. -/
theorem pair_overlap (h : Sound m res R) (hr : r ∈ R) (hroom : 9 ≤ m.freeCount)
    (hmany : m.freeCount ≤ 2 ^ 20) :
    ¬((pair m r r').run fb [.clone 1 true true, askPage 1]).RangeFree fb (askPage 3) := by
  obtain ⟨hstack, hroom₁⟩ := h.alloc_room (by omega)
  obtain ⟨K, hacc, -⟩ := h.alloc
  obtain ⟨stack, hclone⟩ := pair_clone fb r r' hstack
  have hbase : mmapBase / pageSize + 2 ^ 20 ≤ userPages := by decide
  have hrun : (pair m r r').run fb [.clone 1 true true, askPage 1] =
      (Machine.step fb ((pair m r r').run fb [.clone 1 true true]) (askPage 1)).1 := rfl
  rw [hrun]
  have hp : ((pair m r r').run fb [.clone 1 true true]).live 1 =
      some ⟨⟨1, r, 0, 0, 0, mmapBase⟩, true, false⟩ := by
    rw [hclone]
    rfl
  have hq : ((pair m r r').run fb [.clone 1 true true]).live 3 =
      some ⟨⟨3, r, stack, 0, 0, mmapBase⟩, true, false⟩ := by
    rw [hclone]
    rfl
  have hmem : ((pair m r r').run fb [.clone 1 true true]).mem = m.alloc.1 := by
    rw [hclone]
    rfl
  generalize (pair m r r').run fb [.clone 1 true true] = s at *
  rw [← hmem] at hacc hroom₁
  have hmany' : mmapBase / pageSize + s.mem.freeCount ≤ userPages := by omega
  generalize mmapBase = base at *
  exact Machine.ask_twice hacc hp hq (by decide) hr rfl rfl (by omega) hmany'

theorem pair_next {p : Nat} {t : Thread} (h : (pair m r r').threads p = some t) :
    t.task.mmapNext = mmapBase := by
  unfold pair at h
  dsimp only at h
  split at h
  · obtain rfl := Option.some.inj h
    rfl
  · split at h
    · obtain rfl := Option.some.inj h
      rfl
    · cases h

/-- Where nothing is mapped, everything is below any limit. -/
theorem pair_stacked {limit : Nat} (hok : (pair m r r').Ok res R)
    (hempty : ∀ x ∈ R, ∀ v < userPages, m.leaf x v = 0#64) : (pair m r r').Stacked limit := by
  constructor
  · intro p t ht
    rw [pair_next ht]
    decide
  · intro p t ht v hv hp
    rw [show (pair m r r').mem = m from rfl, hempty _ (hok.space p t ht) v hv, isSet_zero] at hp
    cases hp

/-- A process and its thread, in memory with thirteen free frames. -/
theorem threads_overlap :
    let s := pair (twoSpaces 2).1 (twoSpaces 2).2.1 (twoSpaces 2).2.2
    s.Ok onlyZero {(twoSpaces 2).2.2, (twoSpaces 2).2.1} ∧ s.Stacked userPages ∧
      ¬(s.run ⟨0xfd000000, pageSize⟩ [.clone 1 true true, askPage 1]).RangeFree
        ⟨0xfd000000, pageSize⟩ (askPage 3) := by
  obtain ⟨hok, hempty, -, hroom⟩ := twoSpaces_spec 2 (by decide) (by decide)
  generalize twoSpaces 2 = o at *
  have hroom' : 9 ≤ o.1.freeCount := by omega
  have hmany : o.1.freeCount ≤ 2 ^ 20 := by omega
  refine ⟨hok, pair_stacked hok hempty, pair_overlap hok.sound ?_ hroom' hmany⟩
  exact Finset.mem_insert_of_mem (Finset.mem_singleton_self _)

namespace Machine

variable {s : Machine} {p : Nat} {t : Thread}

/-- A process that is moved ahead stays foremost, and so is a copy of it. -/
theorem Foremost.put (h : Foremost s t) (p : Nat) (t' : Thread) (hcr3 : t'.task.cr3 = t.task.cr3)
    (hle : t.task.mmapNext ≤ t'.task.mmapNext) : Foremost (s.put p t') t' := by
  intro q u hq hsame
  rw [put_threads] at hq
  split at hq
  · rw [Option.some.inj hq]
  · exact (h q u hq (hsame.trans hcr3)).trans hle

theorem Ok.askPage_orderly (hok : Ok res R s) (hlive : s.live p = some t) (hfore : Foremost s t)
    (hroom : 4 ≤ s.mem.freeCount)
    (hmany : t.task.mmapNext / pageSize + s.mem.freeCount ≤ userPages) :
    Orderly userPages fb s (askPage p) := by
  obtain ⟨K, hacc, -⟩ := hok.sound
  obtain ⟨m', heq, -⟩ :=
    step_askPage fb hacc hlive (hok.space _ _ (live_eq_some.mp hlive).1) hroom hmany
  intro t' ht'
  obtain rfl := Option.some.inj (hlive.symm.trans ht')
  refine ⟨congrArg Prod.snd heq, hfore, ?_⟩
  rw [show pagesOf pageSize = 1 by decide]
  omega

/-- A foremost process is given a page and makes a thread, which asks for the next page. -/
theorem Ok.thread_orderly (hok : Ok res R s) (hlive : s.live p = some t) (hfore : Foremost s t)
    (hroom : 9 ≤ s.mem.freeCount)
    (hmany : t.task.mmapNext / pageSize + 1 + s.mem.freeCount ≤ userPages) :
    Along (Orderly userPages fb) (fun s op => (Machine.step fb s op).1) s
      [askPage p, .clone p true true, askPage s.nextPid] := by
  have hfirst : Orderly userPages fb s (askPage p) :=
    hok.askPage_orderly hlive hfore (by omega) (by omega)
  obtain ⟨K, hacc, -⟩ := hok.sound
  obtain ⟨m₁, heq₁, -, hfewer, hleft⟩ := step_askPage fb hacc hlive
    (hok.space _ _ (live_eq_some.mp hlive).1) (by omega) (by omega)
  have hok₁ := hok.step (hfirst.inHalf (Nat.le_refl _))
  have hcr3 : (bump t.task 1).cr3 = t.task.cr3 := by rw [bump]
  have hnext : (bump t.task 1).mmapNext = t.task.mmapNext + pageSize := by
    unfold bump userPages pageSize at *
    dsimp only
    omega
  rw [heq₁] at hok₁
  have hok₂ := hok₁.step (show InHalf fb _ (.clone p true true) from fun _ _ => trivial)
  refine ⟨hfirst, fun _ _ => trivial, ?_, trivial⟩
  dsimp only
  rw [heq₁]
  generalize bump t.task 1 = task at *
  have hle : t.task.mmapNext ≤ task.mmapNext := hnext ▸ Nat.le_add_right _ _
  have hfore' : Foremost { s with mem := m₁ } t := hfore
  have hfore₁ := hfore'.put p { t with task } hcr3 hle
  have hlive₁ : ({ s with mem := m₁ }.put p { t with task }).live p = some { t with task } := by
    rw [live_eq_some, put_threads, if_pos rfl]
    exact ⟨rfl, (live_eq_some.mp hlive).2⟩
  obtain ⟨hstack, hleft₁⟩ : m₁.alloc.2 ≠ 0 ∧ m₁.alloc.1.freeCount + 1 = m₁.freeCount :=
    hok₁.sound.alloc_room (show 0 < m₁.freeCount by omega)
  rw [step_clone fb hlive₁ hstack] at hok₂ ⊢
  have hfore₂ := (hfore₁.put p ⟨task, true, t.dead⟩ rfl (Nat.le_refl _)).put s.nextPid
    ⟨{ task with pid := s.nextPid, kernelStack := m₁.alloc.2 / pageSize }, true, false⟩ rfl
    (Nat.le_refl _)
  refine hok₂.askPage_orderly ?_ hfore₂ ?_ ?_
  · rw [live_eq_some]
    exact ⟨put_threads.trans (if_pos rfl), rfl⟩
  · exact show 4 ≤ m₁.alloc.1.freeCount by omega
  · show task.mmapNext / pageSize + m₁.alloc.1.freeCount ≤ userPages
    rw [hnext, Nat.add_div_right _ (by decide)]
    omega

end Machine

/-- The thread is given a page of its own. -/
theorem mappings_never_overlap_threads :
    ((pair (twoSpaces 2).1 (twoSpaces 2).2.1 (twoSpaces 2).2.2).run ⟨0xfd000000, pageSize⟩
      [askPage 1, .clone 1 true true]).RangeFree ⟨0xfd000000, pageSize⟩ (askPage 3) := by
  obtain ⟨hok, hempty, -, hroom⟩ := twoSpaces_spec 2 (by decide) (by decide)
  generalize twoSpaces 2 = o at *
  have hbase : mmapBase / pageSize + 1 + 13 ≤ userPages := by decide
  have hfree : (pair o.1 o.2.1 o.2.2).mem.freeCount = 13 := show o.1.freeCount = 13 by omega
  exact Machine.mappings_never_overlap hok (pair_stacked hok hempty) (Nat.le_refl _)
    (hok.thread_orderly (p := 1) rfl (fun q u hq _ => (pair_next hq).le) (by omega)
      (by rw [hfree]; exact hbase))
    (List.prefix_refl ([_, _] ++ [_]))

end

end Aeryk.Vm
