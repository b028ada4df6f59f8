import Aeryk.Proc.Spaces

/-!
# The lifetime of address spaces

`Spaces` along whole runs of any forks, clones, exits and waits.  A call of `execve` that succeeds
must come from a process that is alone with its page table.  The first one that does not leaves a
counter that is too high.
-/

namespace Aeryk

open Finset Lib Kernel

namespace Kernel

/-- The number of processes not yet reaped that share a counter and the page table of a
process. -/
def sharers (k : Kernel) (p c : Nat) : Nat :=
  (k.processes.toFinset.filter fun q =>
    (k.procs q).vmRefcount = some c ∧ (k.procs q).cr3 = (k.procs p).cr3).card

/-- Page tables are destroyed once, and not while a live process uses them.  The counters are the
numbers of processes that share them. -/
structure SpacesOk (k : Kernel) : Prop where
  once : ∀ t, FreesOk (.table t) k.log
  used : ∀ p ∈ k.processes, p ≠ k.idle → k.stateOf p ≠ .dead →
    alive k.log (.table (k.procs p).cr3) = true
  counted : ∀ p ∈ k.processes, ∀ c, (k.procs p).vmRefcount = some c → k.counters c = k.sharers p c

/-- A process that replaces its image has no counter, or one that stands at one. -/
def ExecsAlone (k : Kernel) : Event → Prop
  | .exec (.loaded ..) => ∀ c ∈ (k.procs k.current).vmRefcount, k.counters c = 1
  | _ => True

instance (k : Kernel) : (e : Event) → Decidable (k.ExecsAlone e)
  | .exec (.loaded ..) => inferInstanceAs (Decidable (∀ c ∈ (k.procs k.current).vmRefcount, _))
  | .exec .failed | .exec (.tornDown _) | .tick | .schedule | .irqKbd | .irqMouse | .create ..
  | .clone .. | .exit _ | .fault | .wait _ | .sleep | .kbdRead | .mouseRead | .pipeRead _
  | .pipeWrite .. | .openFile .. | .close _ | .pipe .. | .dup _ | .dup2 .. => isTrue trivial

section

variable {k : Kernel} {V : View} {e : Event}

theorem Spaces.spacesOk (h : Spaces k V.ring.toFinset) (hok : KernelOk k V) : SpacesOk k := by
  have hring := hok.base.ringOk.processes_eq
  refine ⟨h.frees, fun p hp hi _ => h.table p (by rwa [List.mem_toFinset, ← hring]) hi,
    fun p hp c hc => ?_⟩
  rw [hring, ← List.mem_toFinset] at hp
  rw [h.shares.count p hp c hc, sharers, hring]
  unfold refs
  congr 1
  ext q
  rw [mem_filter, mem_filter]
  exact and_congr_right fun hq =>
    ⟨fun hqc => ⟨hqc, h.shares.same q hq p hp c hqc hc⟩, And.left⟩

theorem mem_withNew {D : Finset Nat} {a q : Nat} : q ∈ withNew D (some a) ↔ q ∈ D ∨ q = a := by
  rw [withNew, mem_insert]
  exact Or.comm

theorem joined_toFinset (V : View) (a : Nat) :
    (joined V a).ring.toFinset = withNew V.ring.toFinset (some a) := by
  ext q
  rw [mem_withNew, List.mem_toFinset, List.mem_toFinset]
  exact List.mem_append.trans (or_congr_right List.mem_singleton)

theorem Base.without_toFinset {p : Nat} (h : Base k V) :
    (without V p).ring.toFinset = V.ring.toFinset.erase p := by
  ext q
  rw [List.mem_toFinset, mem_erase, List.mem_toFinset, h.mem_without]
  exact And.comm

theorem KernelOk.spaces_create {image : LoadAnswer} {proc stack : Option Nat} (h : KernelOk k V)
    (hs : Spaces k V.ring.toFinset) (ha : k.AnswersOk (.create image proc stack)) :
    ∃ V', KernelOk (k.createUserProcess image proc stack).1 V' ∧
      Spaces (k.createUserProcess image proc stack).1 V'.ring.toFinset := by
  have h1 := hs.createUserProcess stack ha.1 fun a hp => by
    rw [List.mem_toFinset]
    exact h.fresh_out (hp ▸ ha.2.1)
  obtain ⟨V', hok, -, ⟨rfl, -, hr⟩ | ⟨t, en, rsp, brk, a, st, -, -, -, -, rfl, -, hr⟩⟩ :=
    h.createUserProcess image proc stack ha.2.1
  · rw [hr] at h1
    exact ⟨V', hok, h1⟩
  · rw [hr, ← joined_toFinset] at h1
    exact ⟨_, hok, h1⟩

theorem KernelOk.spaces_clone {flags childStack : Nat} {ans : CloneAnswer} (h : KernelOk k V)
    (hs : Spaces k V.ring.toFinset) (hy : k.yielding = false) (hi : k.current ≠ k.idle)
    (ha : k.AnswersOk (.clone flags childStack ans)) :
    ∃ V', KernelOk (k.cloneProcess k.current flags childStack ans).1 V' ∧
      Spaces (k.cloneProcess k.current flags childStack ans).1 V'.ring.toFinset := by
  have h1 := hs.cloneProcess flags childStack
    (List.mem_toFinset.mpr h.settled.current_mem) hi ha.1 ha.2.1 fun a hp => by
      rw [List.mem_toFinset]
      exact h.fresh_out (hp ▸ ha.2.2.1)
  obtain ⟨V', hok, -, ⟨rfl, -, hr⟩ | ⟨k₁, t, c, a, st, -, -, -, -, rfl, -, hr⟩⟩ :=
    h.cloneProcess hy h.settled.current_mem flags childStack ans ha.2.2.1
  · rw [hr] at h1
    exact ⟨V', hok, h1⟩
  · rw [hr, ← joined_toFinset] at h1
    exact ⟨_, hok, h1⟩

theorem KernelOk.spaces_exit (h : KernelOk k V) (hs : Spaces k V.ring.toFinset)
    (hy : k.yielding = false) (hi : k.current ≠ k.idle) (code : Int) :
    ∃ V', KernelOk (k.exitCurrent code) V' ∧ Spaces (k.exitCurrent code) V'.ring.toFinset := by
  obtain ⟨V', k₁, hserved, hok, heq⟩ := h.exitCurrent hy hi code
  obtain ⟨S, hS⟩ := hserved.moved
  refine ⟨V', hok, ?_⟩
  rw [heq, hS.ring]
  have hrest : ∀ {β : Type} (π : Kernel → β),
      (∀ (k : Kernel) o, π { k with fbHasOwner := o } = π k) →
      π (k₁.fbmapReleaseOwner (k₁.procs k.current).pid) = π k₁ := fun π hπ => by
    unfold fbmapReleaseOwner
    split
    · exact hπ k₁ false
    · rfl
  exact (hs.of_core hS.core).of_same
    (fun p _ => exited_proj Process.space (fun _ _ _ => rfl) k₁ _ _ code p)
    (hrest (·.counters) fun _ _ => rfl) (hrest (·.kernelCr3) fun _ _ => rfl)
    (hrest (·.idle) fun _ _ => rfl) (hrest (·.log) fun _ _ => rfl)

theorem KernelOk.spaces_wait (h : KernelOk k V) (hs : Spaces k V.ring.toFinset)
    (hy : k.yielding = false) (hi : k.current ≠ k.idle) (pid : Int) :
    ∃ V', KernelOk (k.sysWait pid) V' ∧ Spaces (k.sysWait pid) V'.ring.toFinset := by
  rcases sysWait_cases k pid with ⟨-, heq | heq⟩ | ⟨f, ht, heq⟩
  · rw [heq]
    refine ⟨V, h.block hy hi, hs.of_core (rest_core ?_)⟩
    exact setState_rest (by decide) (h.current_not_dead hy)
  · rw [heq]
    exact ⟨V, h, hs⟩
  · obtain ⟨hf, -, hd⟩ := h.waitTarget_spec ht
    have hc : f ≠ k.current := fun e' => h.current_not_dead hy (e' ▸ hd)
    rw [heq]
    refine ⟨without V f, (h.reap hf hd hc).1, ?_⟩
    rw [h.base.without_toFinset]
    exact hs.reap (List.mem_toFinset.mpr hf) (h.base.dead_ne_idle hd)

/-- Every step keeps the address spaces in order if `execve` is called alone. -/
theorem KernelOk.step_spaces (h : KernelOk k V) (hs : Spaces k V.ring.toFinset)
    (hm : k.MayHappen e) (ha : k.AnswersOk e) (hc : k.ExecsAlone e) :
    ∃ V', KernelOk (k.step e) V' ∧ Spaces (k.step e) V'.ring.toFinset := by
  obtain ⟨V₁, hstep⟩ := h.step hm ha
  cases e with
  | create image proc stack => exact h.spaces_create hs ha
  | clone flags stack ans => exact h.spaces_clone hs hm.1 hm.2 ha
  | exec image =>
    refine ⟨V, (h.execProcess k.current image).1, hs.execProcess ha
      (List.mem_toFinset.mpr h.settled.current_mem) hm.2 ?_⟩
    rintro t entry rsp brkStart rfl c e
    exact hc c e
  | exit code => exact h.spaces_exit hs hm.1 hm.2 code
  | fault => exact h.spaces_exit hs hm.1 hm.2 (-1)
  | wait pid => exact h.spaces_wait hs hm.1 hm.2 pid
  | _ =>
    obtain ⟨hcore, hr⟩ := hstep.quiet trivial
    exact ⟨V₁, hstep.ok, hr ▸ hs.of_core hcore⟩

/-- A process that is not alone and replaces its image leaves a counter that is too
high. -/
theorem KernelOk.execsAlone (h : KernelOk k V) (hs : Spaces k V.ring.toFinset)
    (hm : k.MayHappen e) (ha : k.AnswersOk e) (hok : SpacesOk (k.step e)) : k.ExecsAlone e := by
  cases e with
  | exec image =>
    cases image with
    | loaded t entry rsp brkStart =>
      intro c hc
      have hc : (k.procs k.current).vmRefcount = some c := hc
      by_contra hne
      set k' := k.step (.exec (.loaded t entry rsp brkStart)) with hk'
      have hcur := List.mem_toFinset.mpr h.settled.current_mem
      have hcount := hs.shares.count _ hcur c hc
      have herase : refs (fun p => (k.procs p).vmRefcount) (V.ring.toFinset.erase k.current) c
        + 1 = k.counters c := (refs_erase_same hcur hc).trans hcount.symm
      -- somebody else is counted
      obtain ⟨q, hq, hqc⟩ := refs_pos.mp (show 0 < refs (fun p => (k.procs p).vmRefcount)
        (V.ring.toFinset.erase k.current) c by omega)
      obtain ⟨hqp, hq⟩ := mem_erase.mp hq
      have hloaded : k' = ((k.emit (.alloc (.table t))).emit
          (.free (.table (k.procs k.current).cr3))).modify k.current fun x =>
          { x with
            cr3 := t
            entry := entry
            userStackTop := rsp
            brkStart := brkStart
            brk := brkStart
            mmapNext := mmapBase } := rfl
      have hother : ∀ x, x ≠ k.current → k'.procs x = k.procs x := fun x hx => by
        rw [hloaded, modify_ne hx]
        rfl
      have hself : (k'.procs k.current).cr3 = t := by rw [hloaded, modify_same]
      have hctr : ∀ x, (k'.procs x).vmRefcount = (k.procs x).vmRefcount := fun x => by
        rw [hloaded]
        exact modify_proj Process.vmRefcount rfl
      have hproc : k'.processes = V.ring :=
        (h.execProcess k.current (.loaded t entry rsp brkStart)).1.base.ringOk.processes_eq
      have hcounted := hok.counted q (by rw [hproc]; exact List.mem_toFinset.mp hq) c
        ((hctr q).trans hqc)
      have hsharers : k'.sharers q c =
          refs (fun p => (k.procs p).vmRefcount) (V.ring.toFinset.erase k.current) c := by
        unfold sharers refs
        rw [hproc]
        congr 1
        ext x
        rw [mem_filter, mem_filter, mem_erase, hctr, hother q hqp]
        constructor
        · rintro ⟨hx, hxc, hcr⟩
          refine ⟨⟨?_, hx⟩, hxc⟩
          rintro rfl
          exact hs.unused ha hq (hcr.symm.trans hself)
        · rintro ⟨⟨hxp, hx⟩, hxc⟩
          rw [hother x hxp]
          exact ⟨hx, hxc, hs.shares.same x hx q hq c hxc hqc⟩
      have hsame : k'.counters c = k.counters c := rfl
      omega
    | failed | tornDown t => trivial
  | _ => trivial

theorem initScheduler_spaces (b : Boot) :
    Spaces (initScheduler b) (bootView b).ring.toFinset := by
  have hidle := initScheduler_idle b
  have hmem : ∀ {p}, p ∈ (bootView b).ring.toFinset → p = b.idle := fun hm =>
    List.mem_singleton.mp (List.mem_toFinset.mp hm)
  have hnone : ∀ {p c}, p ∈ (bootView b).ring.toFinset →
      ((initScheduler b).procs p).vmRefcount ≠ some c := fun hp e => by
    rw [hmem hp, hidle] at e
    cases e
  refine ⟨⟨fun p hp q hq hne => absurd ((hmem hp).trans (hmem hq).symm) hne,
    fun p hp q _ c e => absurd e (hnone hp), fun p hp c e => absurd e (hnone hp)⟩,
    List.mem_toFinset.mpr (List.mem_singleton_self _), congrArg Process.space hidle,
    fun p hp hi => absurd (hmem hp) hi, fun p hp c e => absurd e (hnone hp), ?_,
    fun t => trivial⟩
  simp [initScheduler, alive]

theorem ReachableBy.spaces (h : ReachableBy ExecsAlone k) :
    ∃ V, KernelOk k V ∧ Spaces k V.ring.toFinset := by
  refine h.invariant (I := fun k => ∃ V, KernelOk k V ∧ Spaces k V.ring.toFinset)
    (fun b => ⟨_, initScheduler_ok b, initScheduler_spaces b⟩) fun k e hI hm ha hc => ?_
  obtain ⟨V, hok, hs⟩ := hI
  exact hok.step_spaces hs hm ha hc

end

end Kernel

/-- In every run in which only processes that are alone with their page table call `execve`
with success, page tables are destroyed once and not while they are used, and the counters
agree with who shares them.  The first call by a process that is not alone breaks this. -/
theorem address_space_lifetime {k : Kernel} (h : ReachableBy ExecsAlone k) :
    SpacesOk k ∧ ∀ e, k.MayHappen e → k.AnswersOk e → (SpacesOk (k.step e) ↔ k.ExecsAlone e) := by
  obtain ⟨V, hok, hs⟩ := h.spaces
  refine ⟨hs.spacesOk hok, fun e hm ha => ⟨hok.execsAlone hs hm ha, fun hc => ?_⟩⟩
  obtain ⟨V', hok', hs'⟩ := hok.step_spaces hs hm ha hc
  exact hs'.spacesOk hok'

/-- A process starts a thread, forks, waits for the thread to exit, and replaces its image. -/
def threadThenExec : List Event :=
  [.create (.loaded 1 0 0 0) (some 1) (some 1), .schedule,
    .clone cloneVm 0 ⟨some 5, none, some 2, some 2⟩, .wait 2, .schedule, .exit 0, .schedule,
    .wait 2, .clone 0 0 ⟨none, some 3, some 3, some 3⟩, .exec (.loaded 4 0 0 0)]

theorem address_space_lifetime_threadThenExec :
    (threadThenExec.foldl step (initScheduler .blank)).processes = [0, 1, 3] ∧
      ((threadThenExec.foldl step (initScheduler .blank)).procs 1).vmRefcount = some 5 ∧
      SpacesOk (threadThenExec.foldl step (initScheduler .blank)) :=
  ⟨by decide +kernel, by decide +kernel,
    (address_space_lifetime (ReachableBy.run ⟨.blank, .refl⟩ (by decide +kernel))).1⟩

/-- A process starts a thread and replaces its image. -/
def execBesideThread : List Event :=
  [.create (.loaded 1 0 0 0) (some 1) (some 1), .schedule,
    .clone cloneVm 0 ⟨some 5, none, some 2, some 2⟩, .exec (.loaded 3 0 0 0)]

/-- The thread runs and replaces its image as well. -/
def execTwice : List Event := execBesideThread ++ [.sleep, .schedule, .exec (.loaded 4 0 0 0)]

/-- The thread is ready to run on a destroyed page table.  When it replaces its image as well, the
page table is destroyed again. -/
theorem execBesideThread_destroys :
    Reachable (execBesideThread.foldl step (initScheduler .blank)) ∧
      (execBesideThread.foldl step (initScheduler .blank)).processes = [0, 1, 2] ∧
      (execBesideThread.foldl step (initScheduler .blank)).stateOf 2 = .ready ∧
      ((execBesideThread.foldl step (initScheduler .blank)).procs 2).cr3 = 1 ∧
      alive (execBesideThread.foldl step (initScheduler .blank)).log (.table 1) = false ∧
      ¬SpacesOk (execBesideThread.foldl step (initScheduler .blank)) ∧
      Reachable (execTwice.foldl step (initScheduler .blank)) ∧
      ¬FreesOk (.table 1) (execTwice.foldl step (initScheduler .blank)).log := by
  have hproc : (execBesideThread.foldl step (initScheduler .blank)).processes = [0, 1, 2] := by
    decide +kernel
  have hstate : (execBesideThread.foldl step (initScheduler .blank)).stateOf 2 = .ready := by
    decide +kernel
  have hgone : alive (execBesideThread.foldl step (initScheduler .blank)).log (.table
      ((execBesideThread.foldl step (initScheduler .blank)).procs 2).cr3) = false := by
    decide +kernel
  refine ⟨ReachableBy.run ⟨.blank, .refl⟩ (by decide +kernel), hproc, hstate, by decide +kernel,
    by decide +kernel, fun h => ?_, ReachableBy.run ⟨.blank, .refl⟩ (by decide +kernel),
    by decide +kernel⟩
  have hlive := h.used 2 (by rw [hproc]; decide) (by decide +kernel) (by rw [hstate]; decide)
  cases hgone.symm.trans hlive

end Aeryk
