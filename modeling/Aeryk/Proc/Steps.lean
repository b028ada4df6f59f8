import Aeryk.Proc.Exit

/-!
# Every step keeps the invariant

One lemma for each event, and their assembly.  `StepOk` says what every step does: it keeps the
invariant for a view, it leaves the descriptors of the other processes alone, and it loses no
process unless `schedule()` picks its caller.  A quiet step leaves the population and the address
spaces alone as well.
-/

namespace Aeryk

open Lib Kernel

/-- The event neither creates, replaces, ends nor reaps a process. -/
def Event.Quiet : Event → Prop
  | .create .. | .clone .. | .exec _ | .exit _ | .fault | .wait _ => False
  | _ => True

namespace Kernel

/-- `schedule()` is called in the given state. -/
def Enters (k : Kernel) : Event → Kernel → Prop
  | .schedule, k₀ => k₀ = k
  | .tick, k₀ => k.tickUpdate = (k₀, true)
  | _, _ => False

structure StepOk (k : Kernel) (V : View) (e : Event) (V' : View) : Prop where
  ok : KernelOk (k.step e) V'
  /-- Only the current process works on its descriptors, and not if it is about to
  yield. -/
  others : ∀ p ∈ V.ring, (k.yielding = false → p ≠ k.current) → k.stateOf p ≠ .dead →
    p ∈ V'.ring ∧ ∀ i, (k.step e).fd p i = k.fd p i
  lost : ∀ p, Lost (k.step e) V' p → Lost k V p ∨
    ∃ k₀, Enters k e k₀ ∧ p = k.current ∧ k₀.scheduleLocked.current = k₀.current
  quiet : e.Quiet → (k.step e).core = k.core ∧ V'.ring = V.ring

section

variable {k : Kernel} {V V' : View} {e : Event}

theorem StepOk.of_served (h : Served k V (k.step e) V') (hy : k.yielding = false) :
    StepOk k V e V' := by
  obtain ⟨S, hS⟩ := h.moved
  exact ⟨h.ok, fun p hp hne _ => ⟨hS.ring ▸ hp, h.others p (hne hy)⟩,
    fun _ hl => .inl (hS.lost hl), fun _ => ⟨hS.core, hS.ring⟩⟩

/-- An event that only the scheduler sees. -/
theorem StepOk.of_rest (hok : KernelOk (k.step e) V') (hr : (k.step e).rest = k.rest)
    (hring : V'.ring = V.ring) (hlost : ∀ p, Lost (k.step e) V' p → Lost k V p ∨
      ∃ k₀, Enters k e k₀ ∧ p = k.current ∧ k₀.scheduleLocked.current = k₀.current) :
    StepOk k V e V' :=
  ⟨hok, fun p hp _ _ => ⟨hring ▸ hp, rest_fd hr p⟩, hlost, fun _ => ⟨rest_core hr, hring⟩⟩

/-- An event that calls `schedule()` ends with what `schedule_locked` does. -/
theorem KernelOk.enters {k₀ : Kernel} (h : KernelOk k V) (he : Enters k e k₀) :
    ∃ V₀ y, Ticked k V k₀ V₀ ∧ KernelOk k₀ V₀ ∧
      k.step e = { k₀.scheduleLocked with yielding := y } ∧
      (y = true → k₀.yielding = true ∧ k₀.scheduleLocked.current = k₀.current) := by
  cases e with
  | schedule =>
    obtain rfl : k₀ = k := he
    exact ⟨V, false, .refl h.base, h, rfl, nofun⟩
  | tick =>
    obtain ⟨V₀, ht⟩ := h.base.tickUpdate
    have he : k.tickUpdate = (k₀, true) := he
    have hstep : k.step .tick = if k.tickUpdate.2 then
        { k.tickUpdate.1.scheduleLocked with
          yielding := k.yielding && k.tickUpdate.1.scheduleLocked.current = k.current }
        else k.tickUpdate.1 := rfl
    rw [he] at ht hstep
    refine ⟨V₀, _, ht, h.ticked ht, hstep, fun hy => ?_⟩
    obtain ⟨hy, hc⟩ := Bool.and_eq_true_iff.mp hy
    exact ⟨ht.yielding.trans hy, (decide_eq_true_iff.mp hc).trans ht.current.symm⟩
  | _ => exact he.elim

theorem KernelOk.step_enters (h : KernelOk k V) (k₀ : Kernel) (he : Enters k e k₀) :
    ∃ V', StepOk k V e V' := by
  obtain ⟨V₀, y, ht, h₀, hstep, hy⟩ := h.enters he
  obtain ⟨V', hs⟩ := h₀.base.scheduleLocked h₀.settled.current_mem h₀.toLayer.keep
  refine ⟨V', .of_rest ?_ ?_ (hs.ring.trans ht.ring) fun p hl => ?_⟩
  · rw [hstep]
    exact h₀.scheduled hs hy
  · rw [hstep]
    exact hs.rest.trans ht.rest
  · rw [hstep] at hl
    rcases hs.lost (p := p) hl with hl | ⟨hp, hc⟩
    · exact .inl (ht.lost hl)
    · exact .inr ⟨k₀, he, hp.trans ht.current, hc⟩

theorem KernelOk.step_tick (h : KernelOk k V) : ∃ V', StepOk k V .tick V' := by
  by_cases hcall : k.tickUpdate.2 = true
  · exact h.step_enters k.tickUpdate.1 (Prod.ext rfl hcall)
  · obtain ⟨V₁, ht⟩ := h.base.tickUpdate
    have hstep : k.step .tick = k.tickUpdate.1 := if_neg hcall
    refine ⟨V₁, .of_rest (hstep ▸ h.ticked ht) (hstep ▸ ht.rest) ht.ring fun p hl => ?_⟩
    rw [hstep] at hl
    exact .inl (ht.lost hl)

/-- An interrupt handler wakes one waiter. -/
theorem KernelOk.wakeOne {w : WaitId} (h : KernelOk k V) (hw : w.Live k.log) :
    ∃ S V', Woke S k V (k.wakeOne w) V' ∧ KernelOk (k.wakeOne w) V' := by
  obtain ⟨S, V', hS, hwoke⟩ := h.base.wakeOne hw
  refine ⟨S, V', hwoke, h.woke hwoke fun hy _ hc => ?_⟩
  exact h.current_free hy (.inr ⟨w, hS hc⟩)

theorem KernelOk.step_irq {w : WaitId} (h : KernelOk k V) (hw : w.Live k.log)
    (he : k.step e = k.wakeOne w) : ∃ V', StepOk k V e V' := by
  obtain ⟨S, V', hwoke, hok⟩ := h.wakeOne hw
  refine ⟨V', .of_rest (he ▸ hok) (he ▸ hwoke.rest) hwoke.ring fun p hl => ?_⟩
  rw [he] at hl
  exact .inl (hwoke.toMoved.lost hl)

theorem KernelOk.step_block (h : KernelOk k V) (hy : k.yielding = false) (hi : k.current ≠ k.idle)
    (he : k.step e = k.block) : ∃ V', StepOk k V e V' := by
  refine ⟨V, .of_rest (he ▸ h.block hy hi) ?_ rfl fun p hl => ?_⟩
  · rw [he]
    exact setState_rest (by decide) (h.current_not_dead hy)
  · rw [he] at hl
    exact .inl (block_lost hl)

theorem KernelOk.step_park {w : WaitId} (h : KernelOk k V) (hy : k.yielding = false)
    (hi : k.current ≠ k.idle) (hw : w.Live k.log)
    (hend : ∀ {x r}, w = .ofEnd x r → ∃ i, k.slotRef (k.current, i) = some (x, r))
    (he : k.step e = k.park w) : ∃ V', StepOk k V e V' := by
  have hd := h.current_not_dead hy
  refine ⟨parked k V w, .of_rest (he ▸ h.park hy hi hw hend) (he ▸ park_rest hd) rfl
    fun p hl => ?_⟩
  rw [he] at hl
  exact .inl (park_lost hd hl)

/-! ## Turns of the pipe calls -/

/-- A byte moves and one waiter on the other side is woken. -/
theorem KernelOk.served_byte {x : Nat} {q : Pipe WaitQueue} {w : WaitId} (h : KernelOk k V)
    (hy : k.yielding = false) (hw : w.Live k.log) (hq : q.readWaiters = (k.pipes x).readWaiters)
    (hq' : q.writeWaiters = (k.pipes x).writeWaiters)
    (hends : ∀ r, q.ends r = (k.pipes x).ends r) :
    ∃ V', Served k V ((k.setPipe x q).wakeOne w) V' := by
  have h1 := h.base.moved_setPipe hq hq'
  obtain ⟨S, V', hS, hwoke⟩ := h1.base.wakeOne (w := w) hw
  refine ⟨V', h.served hy ?_ (h1.trans hwoke.toMoved) (fun p _ i => rest_fd hwoke.rest p i) ?_⟩
  · rintro p (hp | hp)
    · exact hp.elim
    · exact ⟨w, hS hp⟩
  · refine Ends.of_rest ?_ hwoke.rest
    refine h.ends.congr (fun _ _ => rfl) (fun y r => ?_) (fun _ => rfl) fun _ hf => hf
    by_cases hyx : y = x
    · rw [hyx, setPipe_same, hends]
    · rw [setPipe_ne hyx]

theorem KernelOk.pipe_slot (h : KernelOk k V) {i : Fin maxFds} {r : Bool}
    (ht : (k.fd k.current i).type = if r then .pipeRead else .pipeWrite) :
    ∃ x, (k.fd k.current i).pipe = some x ∧ k.slotRef (k.current, i) = some (x, r) ∧
      alive k.log (.pipe x) = true := by
  have hs := h.mem_slots i
  have hne : (k.fd k.current i).pipe ≠ none := (h.ends.ok _ hs).points (by
    show (k.fd k.current i).type = _ ∨ (k.fd k.current i).type = _
    rw [ht]
    cases r
    · exact .inr rfl
    · exact .inl rfl)
  obtain ⟨x, hx⟩ := Option.ne_none_iff_exists'.mp hne
  have href : k.slotRef (k.current, i) = some (x, r) := by
    unfold slotRef slot FileDescriptor.ref
    rw [ht, hx]
    cases r <;> rfl
  exact ⟨x, hx, href, h.ends.live _ hs href⟩

theorem ofEnd_inj {x y : Nat} {r s : Bool} (h : WaitId.ofEnd x r = .ofEnd y s) : x = y ∧ r = s := by
  cases r <;> cases s <;> cases h <;> exact ⟨rfl, rfl⟩

theorem KernelOk.step_pipeRead (h : KernelOk k V) {i : Fin maxFds} (hy : k.yielding = false)
    (hi : k.current ≠ k.idle) (ht : (k.fd k.current i).type = .pipeRead) :
    ∃ V', StepOk k V (.pipeRead i) V' := by
  obtain ⟨x, hx, href, hal⟩ := h.pipe_slot (r := true) ht
  have hstep : k.step (.pipeRead i) = k.pipeReadTurn x := by
    show k.onPipe i k.pipeReadTurn = _
    unfold onPipe
    rw [hx]
  unfold pipeReadTurn at hstep
  split at hstep
  · obtain ⟨V', hs⟩ := h.served_byte (x := x) (q := (k.pipes x).takeByte) (w := .pipeWrite x) hy hal
      rfl rfl fun r => by cases r <;> rfl
    exact ⟨V', .of_served (hstep ▸ hs) hy⟩
  split at hstep
  · exact ⟨V, .of_served (by rw [hstep]; exact Served.refl h) hy⟩
  · refine h.step_park (w := .pipeRead x) hy hi hal (fun {y r} e => ?_) hstep
    obtain ⟨rfl, rfl⟩ := ofEnd_inj (r := true) e
    exact ⟨i, href⟩

theorem KernelOk.step_pipeWrite (h : KernelOk k V) {i : Fin maxFds} {b : Byte}
    (hy : k.yielding = false) (hi : k.current ≠ k.idle)
    (ht : (k.fd k.current i).type = .pipeWrite) : ∃ V', StepOk k V (.pipeWrite i b) V' := by
  obtain ⟨x, hx, href, hal⟩ := h.pipe_slot (r := false) ht
  have hstep : k.step (.pipeWrite i b) = k.pipeWriteTurn x b := by
    show k.onPipe i (fun p => k.pipeWriteTurn p b) = _
    unfold onPipe
    rw [hx]
  unfold pipeWriteTurn at hstep
  split at hstep
  · exact ⟨V, .of_served (by rw [hstep]; exact Served.refl h) hy⟩
  split at hstep
  · obtain ⟨V', hs⟩ := h.served_byte (x := x) (q := (k.pipes x).putByte b) (w := .pipeRead x) hy hal
      rfl rfl fun r => by cases r <;> rfl
    exact ⟨V', .of_served (hstep ▸ hs) hy⟩
  · refine h.step_park (w := .pipeWrite x) hy hi hal (fun {y r} e => ?_) hstep
    obtain ⟨rfl, rfl⟩ := ofEnd_inj (r := false) e
    exact ⟨i, href⟩

/-! ## Processes come and go -/

/-- The child is launched, and nobody else's descriptors change. -/
theorem StepOk.of_launched {k₁ : Kernel} {a : Nat} (hok : KernelOk (k.step e) (joined V a))
    (hlost : ∀ p, Lost (k.step e) (joined V a) p → Lost k V p)
    (hl : Launched k₁ V a (k.step e)) (hfd : ∀ p ∈ V.ring, ∀ i, k₁.fd p i = k.fd p i)
    (hq : ¬e.Quiet) : StepOk k V e (joined V a) :=
  ⟨hok, fun p hp _ _ => ⟨List.mem_append_left _ hp, fun i => (hl.fd p i).trans (hfd p hp i)⟩,
    fun p hp => .inl (hlost p hp), fun h => absurd h hq⟩

theorem KernelOk.step_create {image : LoadAnswer} {proc stack : Option Nat} (h : KernelOk k V)
    (hf : k.Fresh .process proc) : ∃ V', StepOk k V (.create image proc stack) V' := by
  obtain ⟨V', hok, hlost, ⟨rfl, heq, -⟩ | ⟨t, en, rsp, brk, a, st, -, -, -, ha, rfl, hl, -⟩⟩ :=
    h.createUserProcess image proc stack hf
  · refine ⟨V', hok, fun p hp _ _ => ⟨hp, fun i => ?_⟩, fun p hp => .inl (hlost p hp),
      fun hq => hq.elim⟩
    exact (congrArg (fun k : Kernel => k.fd p i) heq :)
  · refine ⟨_, .of_launched hok hlost hl (fun p hp i => ?_) id⟩
    exact congrArg (fun x : Process => x.fdTable i) (place_ne (ne_of_mem_of_not_mem hp ha))

theorem cloneSpace_fd (parent flags : Nat) (ans : CloneAnswer) (p : Nat) (i : Fin maxFds) :
    (k.cloneSpace parent flags ans).1.fd p i = k.fd p i := by
  unfold cloneSpace
  split
  · split
    · rfl
    · split
      · rfl
      next c _ =>
        have h : (((k.emit (.alloc (.counter c))).modify parent fun x =>
          { x with vmRefcount := some c }).procs p).fdTable = (k.procs p).fdTable :=
          modify_proj Process.fdTable rfl
        exact congrFun h i
  · split <;> rfl

theorem KernelOk.step_clone {flags childStack : Nat} {ans : CloneAnswer} (h : KernelOk k V)
    (hy : k.yielding = false) (hf : k.Fresh .process ans.child) :
    ∃ V', StepOk k V (.clone flags childStack ans) V' := by
  obtain ⟨V', hok, hlost, ⟨rfl, heq, -⟩ | ⟨k₁, t, c, a, st, hsp, -, -, ha, rfl, hl, -⟩⟩ :=
    h.cloneProcess hy h.settled.current_mem flags childStack ans hf
  · refine ⟨V', hok, fun p hp _ _ => ⟨hp, fun i => ?_⟩, fun p hp => .inl (hlost p hp),
      fun hq => hq.elim⟩
    exact (congrArg (fun k : Kernel => k.fd p i) heq :).trans (cloneSpace_fd _ _ _ p i)
  · refine ⟨_, .of_launched hok hlost hl (fun p hp i => ?_) id⟩
    obtain ⟨P, hP⟩ := cloned_eq k₁ k.current a childStack t c st
    rw [hP]
    refine (congrArg (fun x : Process => x.fdTable i)
      (place_ne (ne_of_mem_of_not_mem hp ha))).trans ?_
    have := cloneSpace_fd (k := k) k.current flags ans p i
    rwa [hsp] at this

theorem KernelOk.step_exec {image : LoadAnswer} (h : KernelOk k V) :
    ∃ V', StepOk k V (.exec image) V' := by
  obtain ⟨hok, hk⟩ := h.execProcess k.current image
  exact ⟨V, hok, fun p hp _ _ => ⟨hp, fun i => kept_fd hk p i⟩,
    fun p hl => .inl (hl.congr hk), fun hq => hq.elim⟩

theorem KernelOk.step_exit {code : Int} (h : KernelOk k V) (hy : k.yielding = false)
    (hi : k.current ≠ k.idle) (he : k.step e = k.exitCurrent code) (hq : ¬e.Quiet) :
    ∃ V', StepOk k V e V' := by
  obtain ⟨V', k₁, hs, hok, heq⟩ := h.exitCurrent hy hi code
  obtain ⟨S, hS⟩ := hs.moved
  rw [heq] at he
  have hkept : (k₁.fbmapReleaseOwner (k₁.procs k.current).pid).kept = k₁.kept :=
    fbmapReleaseOwner_kept _
  have hfd : ∀ p i, (k.step e).fd p i = k₁.fd p i := fun p i => by
    rw [he]
    exact congrFun (exited_proj Process.fdTable (fun _ _ _ => rfl) k₁ _ _ code p) i
  refine ⟨V', ?_,
    fun p hp hne _ => ⟨hS.ring ▸ hp, fun i => (hfd p i).trans (hs.others p (hne hy) i)⟩,
    fun p hl => .inl (hS.lost ?_), fun h => absurd h hq⟩
  · rw [he, ← heq]
    exact hok
  · rw [he] at hl
    obtain ⟨h1, h2, h3, h4⟩ := hl
    have hne : p ≠ k.current := fun e' => by
      subst e'
      have hdead : (k₁.fbmapReleaseOwner (k₁.procs k.current).pid |>.modify k.current fun x =>
        { x with exitCode := code, state := .dead }).stateOf k.current = .dead :=
        congrArg Process.state modify_same
      cases hdead.symm.trans h3
    refine ⟨h1, kept_idle hkept ▸ h2, ?_, h4⟩
    have h5 : (k₁.fbmapReleaseOwner (k₁.procs k.current).pid |>.modify k.current fun x =>
      { x with exitCode := code, state := .dead }).stateOf p = _ :=
      congrArg Process.state (modify_ne hne)
    exact (kept_state hkept p).symm.trans (h5.symm.trans h3)

theorem KernelOk.step_wait {pid : Int} (h : KernelOk k V) (hy : k.yielding = false)
    (hi : k.current ≠ k.idle) : ∃ V', StepOk k V (.wait pid) V' := by
  rcases sysWait_cases k pid with ⟨-, hstep | hstep⟩ | ⟨f, ht, hstep⟩
  · exact h.step_block hy hi hstep
  · have hstep : k.step (.wait pid) = k := hstep
    refine ⟨V, ?_, fun p hp _ _ => ⟨hp, fun i => by rw [hstep]⟩, fun p hl => ?_,
      fun hq => hq.elim⟩
    · rw [hstep]
      exact h
    · rw [hstep] at hl
      exact .inl hl
  · have hstep : k.step (.wait pid) = k.reap f := hstep
    obtain ⟨hf, -, hd⟩ := h.waitTarget_spec ht
    have hc : f ≠ k.current := fun e' => h.current_not_dead hy (e' ▸ hd)
    obtain ⟨hok, hk, hprocs⟩ := h.reap hf hd hc
    refine ⟨without V f, hstep ▸ hok, fun p hp _ hpd => ⟨h.base.mem_without.mpr ⟨hp, ?_⟩,
      fun i => ?_⟩, fun p hl => ?_, fun hq => hq.elim⟩
    · rintro rfl
      exact hpd hd
    · rw [hstep]
      show ((k.reap f).procs p).fdTable i = _
      rw [hprocs, unlink_proj Process.fdTable fun _ _ _ => rfl]
      rfl
    · rw [hstep] at hl
      exact .inl (reap_lost h.base hk hl)

/-! ## All events -/

/-- Every step keeps the invariant. -/
theorem KernelOk.step (h : KernelOk k V) (hm : k.MayHappen e) (ha : k.AnswersOk e) :
    ∃ V', StepOk k V e V' := by
  cases e with
  | tick => exact h.step_tick
  | schedule => exact h.step_enters _ rfl
  | irqKbd => exact h.step_irq (w := .kbd) trivial rfl
  | irqMouse => exact h.step_irq (w := .mouse) trivial rfl
  | create image proc stack => exact h.step_create ha.2.1
  | clone flags childStack ans => exact h.step_clone hm.1 ha.2.2.1
  | exec image => exact h.step_exec
  | exit code => exact h.step_exit hm.1 hm.2 rfl id
  | fault => exact h.step_exit hm.1 hm.2 rfl id
  | wait pid => exact h.step_wait hm.1 hm.2
  | sleep => exact h.step_block hm.1 hm.2 rfl
  | kbdRead =>
    exact h.step_park (w := .kbd) hm.1 hm.2 trivial (fun {x r} e => by cases r <;> cases e) rfl
  | mouseRead =>
    exact h.step_park (w := .mouse) hm.1 hm.2 trivial (fun {x r} e => by cases r <;> cases e) rfl
  | pipeRead i => exact h.step_pipeRead hm.1 hm.2.1 hm.2.2
  | pipeWrite i b => exact h.step_pipeWrite hm.1 hm.2.1 hm.2.2
  | openFile file flags =>
    obtain ⟨V', hs⟩ := h.sysOpen hm.1 file flags
    exact ⟨V', .of_served hs hm.1⟩
  | close rdi =>
    obtain ⟨V', hs⟩ := h.sysClose hm.1 rdi
    exact ⟨V', .of_served hs hm.1⟩
  | pipe p copied =>
    obtain ⟨V', hs, -⟩ := h.sysPipe hm.1 ha copied
    exact ⟨V', .of_served hs hm.1⟩
  | dup oldfd =>
    obtain ⟨V', hs⟩ := h.sysDup hm.1 oldfd
    exact ⟨V', .of_served hs hm.1⟩
  | dup2 oldfd newfd =>
    obtain ⟨V', hs⟩ := h.sysDup2 hm.1 oldfd newfd
    exact ⟨V', .of_served hs hm.1⟩

end

/-! ## All runs -/

/-- The view after `init_scheduler`: the idle process is alone. -/
def bootView (b : Boot) : View := ⟨[b.idle], fun _ => [], fun _ => []⟩

theorem initScheduler_idle (b : Boot) : (initScheduler b).procs b.idle =
    { Process.zero with
      pid := 0
      state := .running
      priority := 3
      ticksExecuted := 0
      cr3 := b.kernelCr3
      kernelStack := b.idleStack
      next := b.idle
      prev := b.idle } := Function.update_self ..

theorem initScheduler_ok (b : Boot) : KernelOk (initScheduler b) (bootView b) := by
  have hidle := initScheduler_idle b
  have hmem : ∀ {p}, p ∈ (bootView b).ring → p = b.idle := fun hm => List.mem_singleton.mp hm
  have hpipe : ∀ {x}, alive (initScheduler b).log (.pipe x) = true → False := fun h => by
    simp [initScheduler, alive] at h
  have hslot : ∀ s ∈ (bootView b).slots, (initScheduler b).slot s = .zero := fun s hs => by
    rw [slot, fd, hmem (View.mem_slots.mp hs), hidle]
    rfl
  refine ⟨⟨⟨⟨?_, fun p hp => ?_, fun p hp q hq _ => ?_, fun p hp => ?_, List.mem_singleton_self _⟩,
    ⟨fun _ => rfl, fun hm => (List.not_mem_nil hm).elim, fun w hw => ?_, fun w hw => ?_,
      fun _ _ => rfl, fun hm => (List.not_mem_nil hm).elim⟩, fun _ => rfl,
    fun hm => (List.not_mem_nil hm).elim, fun hm => (List.not_mem_nil hm).elim, ?_⟩,
    ⟨List.mem_singleton_self _, fun p hp w hs => ?_, fun p hp _ => .inr (hmem hp),
      fun _ hi => absurd rfl hi, fun hy => (by cases hy)⟩, fun p hp _ => hmem hp,
    fun p hp _ i => ?_, fun hm => (List.not_mem_nil hm).elim⟩, ⟨fun s hs => ?_, fun s hs x r he => ?_,
      fun hx => (hpipe hx).elim, fun hx => (hpipe hx).elim, fun _ => trivial⟩⟩
  · exact ring_singleton (congrArg Process.next hidle) (congrArg Process.prev hidle)
  · rw [hmem hp, hidle]
    exact Nat.one_pos
  · rw [hmem hp, hmem hq]
  · rw [hmem hp]
    simp [initScheduler]
  · cases w with
    | kbd | mouse => rfl
    | pipeRead x | pipeWrite x => exact (hpipe hw).elim
  · cases w with
    | kbd | mouse => rfl
    | pipeRead x | pipeWrite x => exact (hpipe hw).elim
  · exact congrArg Process.state hidle
  · rw [hmem hp] at hs
    exact absurd (hs.symm.trans (congrArg Process.state hidle)) w.state_ne.2.1
  · rw [hmem hp, fd, hidle]
    rfl
  · rw [hslot s hs]
    exact ok_of_none rfl rfl
  · rw [slotRef, hslot s hs] at he
    cases he

/-- The invariant holds in every state of every run. -/
theorem Reachable.kernelOk {k : Kernel} (h : Reachable k) : ∃ V, KernelOk k V := by
  refine ReachableBy.invariant (I := fun k => ∃ V, KernelOk k V) (fun b => ⟨_, initScheduler_ok b⟩)
    (fun k e hok hm ha _ => ?_) h
  obtain ⟨V, hok⟩ := hok
  obtain ⟨V', hs⟩ := hok.step hm ha
  exact ⟨V', hs.ok⟩

end Kernel

end Aeryk
