import Aeryk.Proc.Steps

/-!
# Parents

A parent is a pointer to a process.  Nothing clears it when that process is reaped, so it stays
valid only as long as no process is reaped before its children.  After that it points to freed
memory, or to another process that has come to lie there.

`Family` keeps, beside the kernel, which process created which, by pids, since addresses come
back.  A parent link is sound if it leads to a process in `process_queue` that is the creator.
-/

namespace Aeryk

open Function Lib Kernel

/-! ## What a step does to `process_queue` -/

/-- What a process is and where it comes from. -/
def Process.kin (x : Process) : Nat × Option Nat := (x.pid, x.parent)

namespace Kernel

def reaped (k : Kernel) : Event → Option Nat
  | .wait pid => k.waitTarget k.current pid
  | _ => none

/-- Processes stay, or one joins, or one is reaped. -/
inductive Change (k : Kernel) (V : View) (k' : Kernel) (V' : View) : Option Nat → Prop
  | stays (hring : V'.ring = V.ring) (hpid : k'.nextPid = k.nextPid) : Change k V k' V' none
  | joins {a : Nat} (hring : V'.ring = V.ring ++ [a]) (hpid : k'.nextPid = k.nextPid + 1)
    (hout : a ∉ V.ring) (hkin : (k'.procs a).kin = (k.nextPid, some k.current)) :
    Change k V k' V' none
  | leaves {f : Nat} (hring : ∀ q, q ∈ V'.ring ↔ q ∈ V.ring ∧ q ≠ f) (hmem : f ∈ V.ring)
    (hpid : k'.nextPid = k.nextPid) : Change k V k' V' (some f)

/-- What a step does to `process_queue`.  Those who stay keep their parents. -/
structure Changed (k : Kernel) (V : View) (k' : Kernel) (V' : View) (f : Option Nat) : Prop where
  ok : KernelOk k' V'
  same : ∀ p ∈ V.ring, (k'.procs p).kin = (k.procs p).kin
  change : Change k V k' V' f

section

variable {k k' : Kernel} {V V' : View} {e : Event}

theorem Changed.of_core (h : KernelOk k' V') (hc : k'.core = k.core) (hr : V'.ring = V.ring) :
    Changed k V k' V' none :=
  ⟨h, fun p _ => congrArg₂ Prod.mk (core_pid hc p) (core_parent hc p), .stays hr (core_nextPid hc)⟩

theorem kept_kin (hk : k'.kept = k.kept) (p : Nat) : (k'.procs p).kin = (k.procs p).kin :=
  (congrArg Process.kin (kept_proc hk p) :)

theorem Changed.of_kept (h : KernelOk k' V) (hk : k'.kept = k.kept) (hn : k'.nextPid = k.nextPid) :
    Changed k V k' V none :=
  ⟨h, fun p _ => kept_kin hk p, .stays rfl hn⟩

/-- A process that has been filled in joins. -/
theorem Changed.of_launched {k₁ : Kernel} {a : Nat} (hok : KernelOk k' (joined V a))
    (hl : Launched k₁ V a k') (ha : a ∉ V.ring)
    (hsame : ∀ p ∈ V.ring, (k₁.procs p).kin = (k.procs p).kin) (hn : k₁.nextPid = k.nextPid + 1)
    (hkin : (k₁.procs a).kin = (k.nextPid, some k.current)) :
    Changed k V k' (joined V a) none := by
  have hlife : ∀ p, (k'.procs p).kin = (k₁.procs p).kin := fun p =>
    (congrArg Process.kin (hl.life p) :)
  exact ⟨hok, fun p hp => (hlife p).trans (hsame p hp),
    .joins rfl ((frame_nextPid hl.frame).trans hn) ha ((hlife a).trans hkin)⟩

theorem KernelOk.changed_create (h : KernelOk k V) (image : LoadAnswer) (proc stack : Option Nat)
    (hf : k.Fresh .process proc) :
    ∃ V', Changed k V (k.createUserProcess image proc stack).1 V' none := by
  obtain ⟨V', hok, -, ⟨rfl, heq, -⟩ | ⟨t, en, rsp, brk, a, st, -, -, -, ha, rfl, hl, -⟩⟩ :=
    h.createUserProcess image proc stack hf
  · rw [heq] at hok ⊢
    exact ⟨V', .of_kept hok rfl rfl⟩
  · refine ⟨_, .of_launched hok hl ha (fun p hp => ?_) rfl (congrArg Process.kin place_same)⟩
    exact congrArg Process.kin (place_ne (ne_of_mem_of_not_mem hp ha))

theorem KernelOk.changed_clone (h : KernelOk k V) (hy : k.yielding = false) (flags stack : Nat)
    (ans : CloneAnswer) (hf : k.Fresh .process ans.child) :
    ∃ V', Changed k V (k.cloneProcess k.current flags stack ans).1 V' none := by
  obtain ⟨hk, -, hn⟩ := h.cloneSpace k.current flags ans
  obtain ⟨V', hok, -, ⟨rfl, heq, -⟩ | ⟨k₁, t, c, a, st, hsp, -, -, ha, rfl, hl, -⟩⟩ :=
    h.cloneProcess hy h.settled.current_mem flags stack ans hf
  · rw [heq] at hok ⊢
    exact ⟨V', .of_kept hok hk hn⟩
  · rw [hsp] at hk hn
    obtain ⟨P, hP⟩ := cloned_eq k₁ k.current a stack t c st
    rw [hP] at hl
    refine ⟨_, .of_launched hok hl ha (fun p hp => ?_) (congrArg (· + 1) hn) ?_⟩
    · exact (congrArg Process.kin (place_ne (ne_of_mem_of_not_mem hp ha))).trans (kept_kin hk p)
    · rw [← hn]
      exact congrArg Process.kin place_same

theorem reap_nextPid (k : Kernel) (p : Nat) : (k.reap p).nextPid = k.nextPid := by
  unfold reap destroyProcessVm
  rw [unlink_eq]
  dsimp only
  split
  · rfl
  split
  · rfl
  split <;> rfl

theorem KernelOk.changed_wait (h : KernelOk k V) (hy : k.yielding = false)
    (hi : k.current ≠ k.idle) (pid : Int) :
    ∃ V', Changed k V (k.sysWait pid) V' (k.waitTarget k.current pid) := by
  rcases sysWait_cases k pid with ⟨ht, heq | heq⟩ | ⟨f, ht, heq⟩
  · rw [heq, ht]
    refine ⟨V, .of_core (h.block hy hi) (rest_core ?_) rfl⟩
    exact setState_rest (by decide) (h.current_not_dead hy)
  · rw [heq, ht]
    exact ⟨V, .of_core h rfl rfl⟩
  · obtain ⟨hf, -, hd⟩ := h.waitTarget_spec ht
    have hc : f ≠ k.current := fun e' => h.current_not_dead hy (e' ▸ hd)
    rw [heq, ht]
    obtain ⟨hok, -, hprocs⟩ := h.reap hf hd hc
    refine ⟨without V f, hok, fun p _ => ?_,
      .leaves (fun q => h.base.mem_without) hf (reap_nextPid k f)⟩
    rw [hprocs]
    exact unlink_proj Process.kin (fun _ _ _ => rfl) k f p

theorem KernelOk.changed_exit (h : KernelOk k V) (hy : k.yielding = false)
    (hi : k.current ≠ k.idle) (code : Int) : ∃ V', Changed k V (k.exitCurrent code) V' none := by
  obtain ⟨V', k₁, hs, hok, heq⟩ := h.exitCurrent hy hi code
  obtain ⟨S, hS⟩ := hs.moved
  refine ⟨V', hok, fun p _ => ?_, .stays hS.ring ?_⟩
  · rw [heq]
    refine (exited_proj Process.kin (fun _ _ _ => rfl) k₁ _ _ code p).trans ?_
    exact congrArg₂ Prod.mk (core_pid hS.core p) (core_parent hS.core p)
  · rw [heq]
    exact (fbmapReleaseOwner_nextPid _).trans (core_nextPid hS.core)

/-- Every step is one of the changes. -/
theorem KernelOk.changed (h : KernelOk k V) (hm : k.MayHappen e) (ha : k.AnswersOk e) :
    ∃ V', Changed k V (k.step e) V' (k.reaped e) := by
  obtain ⟨V₁, hs⟩ := h.step hm ha
  cases e with
  | create image proc stack => exact h.changed_create image proc stack ha.2.1
  | clone flags stack ans => exact h.changed_clone hm.1 flags stack ans ha.2.2.1
  | exec image =>
    obtain ⟨hok, hk⟩ := h.execProcess k.current image
    refine ⟨V, .of_kept hok hk ?_⟩
    cases image <;> rfl
  | exit code => exact h.changed_exit hm.1 hm.2 code
  | fault => exact h.changed_exit hm.1 hm.2 (-1)
  | wait pid => exact h.changed_wait hm.1 hm.2 pid
  | _ =>
    obtain ⟨hc, hr⟩ := hs.quiet trivial
    exact ⟨V₁, .of_core hs.ok hc hr⟩

end

/-- If the event reaps a process, that process has no child in `process_queue`. -/
def ReapsChildless (k : Kernel) (e : Event) : Prop :=
  ∀ f ∈ k.reaped e, ∀ p ∈ k.processes, (k.procs p).parent ≠ some f

instance (k : Kernel) (e : Event) : Decidable (k.ReapsChildless e) :=
  inferInstanceAs (Decidable (∀ f ∈ k.reaped e, _))

end Kernel

/-! ## Creators -/

/-- The kernel, and which process created which, by their pids. -/
structure Family where
  kernel : Kernel
  creator : Nat → Option Nat

namespace Family

/-- The state after `init_scheduler`. -/
def boot (b : Boot) : Family := ⟨initScheduler b, fun _ => none⟩

/-- The state after an event.  If a pid is handed out, it goes to a process that the
current one creates. -/
def step (f : Family) (e : Event) : Family where
  kernel := f.kernel.step e
  creator :=
    if (f.kernel.step e).nextPid = f.kernel.nextPid then f.creator
    else update f.creator f.kernel.nextPid (some (f.kernel.procs f.kernel.current).pid)

theorem step_creator (f : Family) (e : Event) : (f.step e).creator =
    if (f.kernel.step e).nextPid = f.kernel.nextPid then f.creator
    else update f.creator f.kernel.nextPid (some (f.kernel.procs f.kernel.current).pid) :=
  rfl

/-- The states of the runs whose steps all meet a condition. -/
def ReachableBy (ok : Kernel → Event → Prop) (f : Family) : Prop :=
  ∃ b es, (initScheduler b).CanRun ok es ∧ f = es.foldl step (boot b)

/-- Parents are in `process_queue`, the dead whose creator is gone are freed by the next
`reap_zombies`, and `wait_reap_child` reports processes that the caller created. -/
structure ParentsOk (f : Family) : Prop where
  linked : ∀ p ∈ f.kernel.processes, (f.kernel.procs p).parent = none ∨
    ∃ q ∈ f.kernel.processes, (f.kernel.procs p).parent = some q
  collected : ∀ p ∈ f.kernel.processes, f.kernel.stateOf p = .dead → p ≠ f.kernel.current →
    (∃ c, f.creator (f.kernel.procs p).pid = some c ∧
      ∀ q ∈ f.kernel.processes, (f.kernel.procs q).pid ≠ c) →
      p ∉ f.kernel.reapZombies.processes
  created : ∀ pid x code, (f.kernel.waitReapChild f.kernel.current pid).2 = .reaped x code →
    f.creator x = some (f.kernel.procs f.kernel.current).pid

/-- Every parent is in the ring and is the creator. -/
structure Sound (f : Family) (V : View) : Prop where
  ok : KernelOk f.kernel V
  parent : ∀ p ∈ V.ring, ∀ q, (f.kernel.procs p).parent = some q →
    q ∈ V.ring ∧ f.creator (f.kernel.procs p).pid = some (f.kernel.procs q).pid

section

variable {f : Family} {V : View} {e : Event}

theorem Sound.parentsOk (h : Sound f V) : ParentsOk f := by
  have hring := h.ok.base.ringOk.processes_eq
  refine ⟨fun p hp => ?_, fun p hp hd _ hgone => ?_, fun pid x code hw => ?_⟩
  · rw [hring] at hp ⊢
    cases hpar : (f.kernel.procs p).parent with
    | none => exact .inl rfl
    | some q => exact .inr ⟨q, (h.parent p hp q hpar).1, rfl⟩
  · rw [hring] at hp hgone
    obtain ⟨c, hc, hno⟩ := hgone
    cases hpar : (f.kernel.procs p).parent with
    | none => exact absurd (h.ok.orphan p hp hpar) (h.ok.base.dead_ne_idle hd)
    | some q =>
      obtain ⟨hq, he⟩ := h.parent p hp q hpar
      exact absurd (Option.some.inj (he.symm.trans hc)) (hno q hq)
  · have htarget := waitReapChild_eq f.kernel f.kernel.current pid
    cases ht : f.kernel.waitTarget f.kernel.current pid with
    | none =>
      rw [ht] at htarget
      exact absurd hw (htarget.2 x code)
    | some found =>
      obtain ⟨hm, hpar, -⟩ := h.ok.waitTarget_spec ht
      rw [ht] at htarget
      rw [htarget] at hw
      cases hw
      exact (h.parent found hm _ hpar).2

theorem boot_sound (b : Boot) : Sound (boot b) (bootView b) := by
  refine ⟨initScheduler_ok b, fun p hp q hpar => ?_⟩
  obtain rfl : p = b.idle := List.mem_singleton.mp hp
  cases (congrArg Process.parent (initScheduler_idle b)).symm.trans hpar

/-- A step keeps every parent in the ring if the process it reaps has no child. -/
theorem Sound.step (h : Sound f V) (hm : f.kernel.MayHappen e) (ha : f.kernel.AnswersOk e)
    (hc : f.kernel.ReapsChildless e) : ∃ V', Sound (f.step e) V' := by
  obtain ⟨V', hok, hsame, hchange⟩ := h.ok.changed hm ha
  unfold ReapsChildless at hc
  rw [h.ok.base.ringOk.processes_eq] at hc
  have hpid : ∀ p ∈ V.ring, ((f.kernel.step e).procs p).pid = (f.kernel.procs p).pid :=
    fun p hp => congrArg Prod.fst (hsame p hp)
  have hpar : ∀ p ∈ V.ring, ((f.kernel.step e).procs p).parent = (f.kernel.procs p).parent :=
    fun p hp => congrArg Prod.snd (hsame p hp)
  refine ⟨V', hok, fun p hp q hq => ?_⟩
  have hq : ((f.kernel.step e).procs p).parent = some q := hq
  show q ∈ V'.ring ∧ (f.step e).creator ((f.kernel.step e).procs p).pid =
    some ((f.kernel.step e).procs q).pid
  generalize hreap : f.kernel.reaped e = g at *
  cases hchange with
  | stays hring hn =>
    rw [hring] at hp ⊢
    rw [hpar p hp] at hq
    obtain ⟨hq', he⟩ := h.parent p hp q hq
    refine ⟨hq', ?_⟩
    rw [hpid p hp, hpid q hq', step_creator, if_pos hn]
    exact he
  | joins hring hn hout hkin =>
    have hne : (f.kernel.step e).nextPid ≠ f.kernel.nextPid := by rw [hn]; omega
    rw [hring] at hp ⊢
    rw [step_creator, if_neg hne]
    rcases List.mem_append.mp hp with hp | hp
    · rw [hpar p hp] at hq
      obtain ⟨hq', he⟩ := h.parent p hp q hq
      refine ⟨List.mem_append_left _ hq', ?_⟩
      rw [hpid p hp, hpid q hq', update_of_ne]
      · exact he
      · exact (h.ok.base.ringOk.pid_lt p hp).ne
    · obtain rfl := List.mem_singleton.mp hp
      obtain rfl : q = f.kernel.current :=
        (Option.some.inj ((congrArg Prod.snd hkin).symm.trans hq)).symm
      have hcur := h.ok.settled.current_mem
      refine ⟨List.mem_append_left _ hcur, ?_⟩
      have hp' : ((f.kernel.step e).procs p).pid = f.kernel.nextPid := congrArg Prod.fst hkin
      rw [hp', update_self, hpid _ hcur]
  | leaves hring hmem hn =>
    obtain ⟨hp, -⟩ := (hring p).mp hp
    rw [hpar p hp] at hq
    obtain ⟨hq', he⟩ := h.parent p hp q hq
    refine ⟨(hring q).mpr ⟨hq', ?_⟩, ?_⟩
    · rintro rfl
      exact hc q rfl p hp hq
    · rw [hpid p hp, hpid q hq', step_creator, if_pos hn]
      exact he

/-- If a process is reaped before its child, the child's parent dangles. -/
theorem Sound.reapsChildless (h : Sound f V) (hm : f.kernel.MayHappen e)
    (ha : f.kernel.AnswersOk e) (hp : ParentsOk (f.step e)) : f.kernel.ReapsChildless e := by
  intro g hg p hmem hpar
  obtain ⟨V', hok, hsame, hchange⟩ := h.ok.changed hm ha
  rw [h.ok.base.ringOk.processes_eq] at hmem
  have hlinked := hp.linked p
  have hproc : (f.step e).kernel.processes = V'.ring := hok.base.ringOk.processes_eq
  have hpar' : ((f.step e).kernel.procs p).parent = some g :=
    (congrArg Prod.snd (hsame p hmem)).trans hpar
  rw [hproc, hpar'] at hlinked
  have hg' : f.kernel.reaped e = some g := hg
  rw [hg'] at hchange
  have hne : p ≠ g := by
    rintro rfl
    -- the process would be its own parent, and so the one that waits
    cases e with
    | wait pid =>
      obtain ⟨-, h2, h3⟩ := h.ok.waitTarget_spec hg'
      have hcur : p = f.kernel.current := Option.some.inj (hpar.symm.trans h2)
      exact h.ok.current_not_dead hm.1 (hcur ▸ h3)
    | _ => cases hg'
  cases hchange with
  | leaves hring _ _ =>
    rcases hlinked ((hring p).mpr ⟨hmem, hne⟩) with hno | ⟨q, hq, he⟩
    · cases hno
    · cases he
      exact ((hring g).mp hq).2 rfl

theorem Sound.run {es : List Event} (h : Sound f V) (hrun : f.kernel.CanRun ReapsChildless es) :
    ∃ V', Sound (es.foldl Family.step f) V' := by
  induction es generalizing f V with
  | nil => exact ⟨V, h⟩
  | cons e es ih =>
    obtain ⟨hm, ha, hc, hrun⟩ := hrun
    obtain ⟨V', h'⟩ := h.step hm ha hc
    exact ih h' hrun

theorem ReachableBy.sound (h : ReachableBy ReapsChildless f) : ∃ V, Sound f V := by
  obtain ⟨b, es, hrun, rfl⟩ := h
  exact (boot_sound b).run hrun

end

end Family

/-- In every run in which no process is reaped before its children, parent links and what
`wait_reap_child` reports are sound.  The first time a process is reaped before a child,
the parent link of the child dangles. -/
theorem parent_links_sound {f : Family} (h : f.ReachableBy ReapsChildless) :
    f.ParentsOk ∧ ∀ e, f.kernel.MayHappen e → f.kernel.AnswersOk e →
      ((f.step e).ParentsOk ↔ f.kernel.ReapsChildless e) := by
  obtain ⟨V, hs⟩ := h.sound
  refine ⟨hs.parentsOk, fun e hm ha => ⟨hs.reapsChildless hm ha, fun hc => ?_⟩⟩
  obtain ⟨V', hs'⟩ := hs.step hm ha hc
  exact hs'.parentsOk

/-- A process forks, its child exits, and it waits for the child. -/
def forkAndWait : List Event :=
  [.create (.loaded 1 0 0 0) (some 1) (some 1), .schedule,
    .clone 0 0 ⟨none, some 2, some 2, some 2⟩, .wait 0, .schedule, .exit 7, .schedule, .wait 0]

theorem parent_links_sound_forkAndWait :
    (forkAndWait.foldl Family.step (.boot .blank)).kernel.processes = [0, 1] ∧
      (forkAndWait.foldl Family.step (.boot .blank)).ParentsOk :=
  ⟨by decide +kernel, (parent_links_sound ⟨.blank, forkAndWait, by decide +kernel, rfl⟩).1⟩

/-- Process 1 forks process 2, which forks process 3 and exits.  Process 1 waits for
process 2. -/
def reapedParent : List Event :=
  [.create (.loaded 1 0 0 0) (some 1) (some 1), .schedule,
    .clone 0 0 ⟨none, some 2, some 2, some 2⟩, .wait 0, .schedule,
    .clone 0 0 ⟨none, some 3, some 3, some 3⟩, .exit 0, .schedule, .sleep, .schedule, .wait 0]

/-- Process 1 forks again and the child comes to lie where process 2 was.  Process 3 exits. -/
def strangersChild : List Event :=
  reapedParent ++
    [.clone 0 0 ⟨none, some 4, some 2, some 4⟩, .wait 0, .schedule, .sleep, .schedule,
      .exit 7, .schedule, .wait 0, .schedule]

/-- The parent of process 3 dangles.  Later process 4 is told of the exit of process 3, which
process 2 created. -/
theorem reapedParent_dangles :
    (reapedParent.foldl Family.step (.boot .blank)).ReachableBy (fun _ _ => True) ∧
      (reapedParent.foldl Family.step (.boot .blank)).kernel.processes = [0, 1, 3] ∧
      ((reapedParent.foldl Family.step (.boot .blank)).kernel.procs 3).parent = some 2 ∧
      ¬(reapedParent.foldl Family.step (.boot .blank)).ParentsOk ∧
      (strangersChild.foldl Family.step (.boot .blank)).ReachableBy (fun _ _ => True) ∧
      ((strangersChild.foldl Family.step (.boot .blank)).kernel.procs
        (strangersChild.foldl Family.step (.boot .blank)).kernel.current).pid = 4 ∧
      ((strangersChild.foldl Family.step (.boot .blank)).kernel.waitReapChild
        (strangersChild.foldl Family.step (.boot .blank)).kernel.current 0).2 = .reaped 3 7 ∧
      (strangersChild.foldl Family.step (.boot .blank)).creator 3 = some 2 := by
  have hproc : (reapedParent.foldl Family.step (.boot .blank)).kernel.processes = [0, 1, 3] := by
    decide +kernel
  have hpar : ((reapedParent.foldl Family.step (.boot .blank)).kernel.procs 3).parent = some 2 := by
    decide +kernel
  refine ⟨⟨.blank, reapedParent, by decide +kernel, rfl⟩, hproc, hpar, fun h => ?_,
    ⟨.blank, strangersChild, by decide +kernel, rfl⟩, by decide +kernel, by decide +kernel,
    by decide +kernel⟩
  rcases h.linked 3 (by rw [hproc]; decide) with hn | ⟨q, hq, he⟩
  · cases hn.symm.trans hpar
  · cases hpar.symm.trans he
    rw [hproc] at hq
    exact absurd hq (by decide)

end Aeryk
