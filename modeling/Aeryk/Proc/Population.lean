import Aeryk.Proc.Descriptors

/-!
# Processes come and go

Creation, cloning, `execve`, exit and reaping keep the invariant.  A new process is
prepared outside the ring, where the invariant does not look, and then joins the ring and
its ready queue (`launch`).  A dead process that is reaped is on no queue and holds no
descriptors.
-/

namespace Aeryk

open List Lib

/-- A process without the fields the invariant does not look at. -/
def Process.kept (x : Process) : Process :=
  { x with
    cr3 := 0
    vmRefcount := none
    kernelStack := 0
    entry := 0
    userStackTop := 0
    brkStart := 0
    brk := 0
    mmapNext := 0
    exitCode := 0 }

/-- A process without its scheduling state, its queue links and its place in the ring. -/
def Process.life (x : Process) : Process := { x.rest with next := 0, prev := 0 }

namespace Kernel

/-- The kernel without what the invariant does not look at, and without the log. -/
def kept (k : Kernel) : Kernel :=
  { k with
    procs := fun p => (k.procs p).kept
    nextPid := 0
    globalTicks := 0
    counters := fun _ => 0
    kernelCr3 := 0
    fbOwnerPid := 0
    fbHasOwner := false
    log := [] }

section Kept

variable {k k' : Kernel} {V : View}

section

variable (h : k'.kept = k.kept)

include h

theorem kept_proc (p : Nat) : (k'.procs p).kept = (k.procs p).kept :=
  congrFun (congrArg Kernel.procs h) p

theorem kept_current : k'.current = k.current := (congrArg (fun x : Kernel => x.current) h :)

theorem kept_idle : k'.idle = k.idle := (congrArg (fun x : Kernel => x.idle) h :)

theorem kept_pipes : k'.pipes = k.pipes := (congrArg (fun x : Kernel => x.pipes) h :)

theorem kept_waitq (w : WaitId) : k'.waitq w = k.waitq w :=
  (congrArg (fun x : Kernel => x.waitq w) h :)

theorem kept_fd (p : Nat) (i : Fin maxFds) : k'.fd p i = k.fd p i :=
  (congrFun (congrArg Process.fdTable (kept_proc h p)) i :)

theorem kept_state (p : Nat) : k'.stateOf p = k.stateOf p :=
  (congrArg Process.state (kept_proc h p) :)

end

/-- Calls to the layers below that are not about pipes. -/
structure SameLog (V : View) (log log' : List Call) : Prop where
  pipes : ∀ x, alive log' (.pipe x) = alive log (.pipe x)
  frees : ∀ x, FreesOk (.pipe x) log → FreesOk (.pipe x) log'
  procs : ∀ p ∈ V.ring, alive log' (.process p) = true

theorem SameLog.live {log log' : List Call} (h : SameLog V log log') (w : WaitId) :
    w.Live log' ↔ w.Live log := by
  cases w with
  | kbd | mouse => rfl
  | pipeRead x | pipeWrite x => simp only [WaitId.Live, h.pipes]

/-- The invariant depends on what it looks at. -/
theorem KernelOk.congr (h : KernelOk k V) (hk : k'.kept = k.kept) (hpid : k.nextPid ≤ k'.nextPid)
    (hl : SameLog V k.log k'.log) : KernelOk k' V := by
  have hp := kept_proc hk
  have hring : RingOk k' V.ring := by
    have hpid' : ∀ p, (k'.procs p).pid = (k.procs p).pid :=
      fun p => (congrArg Process.pid (hp p) :)
    refine ⟨?_, fun p hm => ?_, fun p hm q hq e => ?_, hl.procs, ?_⟩
    · rw [show k'.processQueue = k.processQueue from
        (congrArg (fun x : Kernel => x.processQueue) hk :)]
      exact h.base.ringOk.ring.congr (fun p _ => (congrArg Process.next (hp p) :))
        fun p _ => (congrArg Process.prev (hp p) :)
    · rw [hpid']
      exact (h.base.ringOk.pid_lt p hm).trans_le hpid
    · rw [hpid', hpid'] at e
      exact h.base.ringOk.pid_inj p hm q hq e
    · rw [kept_idle hk]
      exact h.base.ringOk.idle_mem
  have hbase : Base k' V := h.base.congr hring (kept_idle hk)
    (congrArg (fun x : Kernel => x.mlfq) hk :)
    (fun w hw => .inl ⟨(hl.live w).mp hw, kept_waitq hk w⟩)
    (fun w hw => h.base.links.wait_none w fun hw' => hw ((hl.live w).mpr hw'))
    (fun p _ => (congrArg Process.sched (hp p) :)) fun _ p _ => (congrArg Process.priority (hp p) :)
  refine ⟨⟨hbase, ⟨?_, fun p hm w hs => ?_, fun p hm hs => ?_, fun hy hi => ?_, fun hy => ?_⟩,
    fun p hm hpar => ?_, fun p hm hd i => ?_, fun {x r p} hm => ?_⟩, ?_⟩
  · rw [kept_current hk]
    exact h.settled.current_mem
  · rw [kept_state hk] at hs ⊢
    exact h.settled.parked p hm hs
  · rw [kept_state hk] at hs
    rw [kept_current hk, kept_idle hk]
    exact h.settled.running p hm hs
  · rw [kept_current hk, kept_idle hk] at hi
    rw [kept_current hk, kept_state hk]
    exact h.settled.free ((congrArg (fun x : Kernel => x.yielding) hk).symm.trans hy) hi
  · rw [kept_current hk, kept_state hk]
    exact h.settled.halted ((congrArg (fun x : Kernel => x.yielding) hk).symm.trans hy)
  · rw [kept_idle hk]
    exact h.orphan p hm ((congrArg Process.parent (hp p)).symm.trans hpar)
  · rw [kept_state hk] at hd
    rw [kept_fd hk]
    exact h.dead_slots p hm hd i
  · obtain ⟨i, hi⟩ := h.waiters hm
    exact ⟨i, by rwa [slotRef, slot, kept_fd hk]⟩
  · exact h.ends.congr (fun s _ => kept_fd hk s.1 s.2) (fun x r => by rw [kept_pipes hk]) hl.pipes
      hl.frees

theorem Lost.congr {p : Nat} (hk : k'.kept = k.kept) (hl : Lost k' V p) : Lost k V p :=
  ⟨hl.1, kept_idle hk ▸ hl.2.1, kept_state hk p ▸ hl.2.2.1, hl.2.2.2⟩

/-! ## Calls to the layers below -/

theorem alive_cons_ne {c : Call} {o : Obj} (h : c.obj ≠ o) (log : List Call) :
    alive (c :: log) o = alive log o := by
  cases c with
  | alloc o' => simp only [alive_alloc, decide_eq_false (show ¬o' = o from h), Bool.false_or]
  | free o' => simp only [alive_free, decide_eq_true (show o' ≠ o from h), Bool.true_and]

theorem freesOk_cons_ne {c : Call} {o : Obj} (h : c.obj ≠ o) {log : List Call}
    (hf : FreesOk o log) : FreesOk o (c :: log) := by
  cases c with
  | alloc o' => exact hf
  | free o' => exact ⟨fun e => absurd e h, hf⟩

theorem KernelOk.sameLog (h : KernelOk k V) : SameLog V k.log k.log :=
  ⟨fun _ => rfl, fun _ hf => hf, h.base.ringOk.alive_mem⟩

theorem SameLog.cons {log log' : List Call} {c : Call} (h : SameLog V log log')
    (hc : c.obj.isPipe = false) (hp : ∀ p ∈ V.ring, c ≠ .free (.process p)) :
    SameLog V log (c :: log') := by
  have hne : ∀ x, c.obj ≠ .pipe x := fun x e => by rw [e] at hc; cases hc
  refine ⟨fun x => (alive_cons_ne (hne x) _).trans (h.pipes x),
    fun x hf => freesOk_cons_ne (hne x) (h.frees x hf), fun p hm => ?_⟩
  by_cases e : c.obj = .process p
  · cases c with
    | alloc o =>
      have : o = .process p := e
      simp [this]
    | free o =>
      have : o = .process p := e
      exact absurd (congrArg Call.free this) (hp p hm)
  · rw [alive_cons_ne e, h.procs p hm]

theorem modify_kept {p : Nat} {f : Process → Process}
    (hf : (f (k.procs p)).kept = (k.procs p).kept) : (k.modify p f).kept = k.kept := by
  have h1 : (k.modify p f).kept =
      { k.kept with procs := fun q => ((k.modify p f).procs q).kept } := rfl
  rw [h1, funext fun q => modify_proj Process.kept hf]
  rfl

theorem KernelOk.load (h : KernelOk k V) (image : LoadAnswer) :
    SameLog V k.log (k.load image).log ∧ (k.load image).kept = k.kept := by
  have h0 := h.sameLog
  cases image with
  | failed => exact ⟨h0, rfl⟩
  | tornDown t =>
    exact ⟨(h0.cons (c := .alloc (.table t)) rfl nofun).cons rfl nofun, rfl⟩
  | loaded t _ _ _ => exact ⟨h0.cons rfl nofun, rfl⟩

/-- `exec_process`. -/
theorem KernelOk.execProcess (h : KernelOk k V) (p : Nat) (image : LoadAnswer) :
    KernelOk (k.execProcess p image) V ∧ (k.execProcess p image).kept = k.kept := by
  obtain ⟨hl, hk⟩ := h.load image
  unfold Kernel.execProcess
  cases image with
  | failed | tornDown t => exact ⟨h.congr hk le_rfl hl, hk⟩
  | loaded t entry rsp brkStart =>
    have hk' := (modify_kept (k := (k.load (.loaded t entry rsp brkStart)).emit
      (.free (.table ((k.load (.loaded t entry rsp brkStart)).procs p).cr3))) (p := p)
      (f := fun x => { x with
        cr3 := t
        entry := entry
        userStackTop := rsp
        brkStart := brkStart
        brk := brkStart
        mmapNext := mmapBase }) rfl).trans hk
    exact ⟨h.congr hk' le_rfl (hl.cons rfl nofun), hk'⟩

end Kept

/-! ## The ring -/

section Ring

variable {k : Kernel} {V : View} {a : Nat} {l : List Nat}

/-- What joining the ring keeps of every process. -/
theorem enqueueProcess_proj {β : Type} (π : Process → β)
    (h : ∀ x n m, π { x with next := n, prev := m } = π x) (k : Kernel) (a q : Nat) :
    π ((k.enqueueProcess a).procs q) = π (k.procs q) := by
  unfold enqueueProcess
  split
  · exact modify_proj (k := { k with processQueue := some a }) π (h _ a a)
  · dsimp only
    rw [modify_proj π (h _ _ a), modify_proj π (h _ a _), modify_proj π (h _ _ _)]

theorem enqueueProcess_frame {h : Nat} (hh : k.processQueue = some h) :
    (k.enqueueProcess a).frame = k.frame ∧ (k.enqueueProcess a).mlfq = k.mlfq := by
  unfold enqueueProcess
  rw [hh]
  exact ⟨rfl, rfl⟩

/-- The new process stands between the head and the process before it. -/
theorem enqueueProcess_links {h : Nat} (hh : k.processQueue = some h) (hah : a ≠ h) (q : Nat) :
    ((k.enqueueProcess a).procs q).next =
      (if q = (k.procs h).prev then a else if q = a then h else (k.procs q).next) ∧
    ((k.enqueueProcess a).procs q).prev =
      (if q = h then a else if q = a then (k.procs h).prev else (k.procs q).prev) := by
  unfold enqueueProcess Kernel.modify
  rw [hh]
  simp only [Function.update_apply]
  grind

theorem RingOk.enqueueProcess (hr : RingOk k l) (ha : a ∉ l)
    (hal : alive k.log (.process a) = true) (hlt : (k.procs a).pid < k.nextPid)
    (hne : ∀ p ∈ l, (k.procs p).pid ≠ (k.procs a).pid) :
    RingOk (k.enqueueProcess a) (l ++ [a]) := by
  obtain ⟨h, hm, hh⟩ := hr.ring.head_of_mem hr.idle_mem
  have hring := hr.ring
  rw [hh] at hring
  have hah : a ≠ h := fun e => ha (e ▸ hm)
  have hap : a ≠ (k.procs h).prev := fun e => ha (e ▸ hring.prev_mem)
  have hlinks := enqueueProcess_links hh hah
  have hframe := (enqueueProcess_frame (a := a) hh).1
  have hpid := enqueueProcess_proj Process.pid (fun _ _ _ => rfl) k a
  refine ⟨?_, fun p hp => ?_, fun p hp q hq e => ?_, fun p hp => ?_, ?_⟩
  · rw [frame_processQueue hframe, hh]
    refine hring.insert ha ?_ ?_ ?_ ?_ (fun b hb hbp => ?_) fun b hb hbh => ?_
    all_goals grind
  · rw [hpid, frame_nextPid hframe]
    have hold := hr.pid_lt p
    grind
  · rw [hpid, hpid] at e
    have hold := hr.pid_inj p
    grind
  · rw [frame_log hframe]
    have hold := hr.alive_mem p
    grind
  · rw [frame_idle hframe]
    exact mem_append_left _ hr.idle_mem

end Ring

/-! ## A new process -/

section Launch

variable {k : Kernel} {V : View} {a : Nat}

/-- The invariant does not look at what is outside the ring. -/
theorem KernelOk.outside {f : Process → Process} (h : KernelOk k V) (ha : a ∉ V.ring) :
    KernelOk (k.modify a f) V := by
  have hne : ∀ {p}, p ∈ V.ring → (k.modify a f).procs p = k.procs p :=
    fun hp => modify_ne (ne_of_mem_of_not_mem hp ha)
  have hr := h.base.ringOk
  have hring : RingOk (k.modify a f) V.ring := by
    refine ⟨hr.ring.congr (fun p hp => by rw [hne hp]) fun p hp => by rw [hne hp],
      fun p hp => ?_, fun p hp q hq e => ?_, hr.alive_mem, hr.idle_mem⟩
    · rw [hne hp]
      exact hr.pid_lt p hp
    · rw [hne hp, hne hq] at e
      exact hr.pid_inj p hp q hq e
  have hstate : ∀ {p}, p ∈ V.ring → (k.modify a f).stateOf p = k.stateOf p :=
    fun hp => congrArg Process.state (hne hp)
  have hfd : ∀ {p}, p ∈ V.ring → ∀ i, (k.modify a f).fd p i = k.fd p i :=
    fun hp i => congrArg (fun x => x.fdTable i) (hne hp)
  refine ⟨⟨h.base.modify hring (fun hq => ha (h.base.queued_mem hq))
    (fun e => ha (e ▸ hr.idle_mem)), ⟨h.settled.current_mem, fun p hp w hs => ?_,
    fun p hp hs => ?_, fun hy hi => ?_, fun hy => ?_⟩, fun p hp hpar => ?_, fun p hp hd i => ?_,
    fun {x r p} hm => ?_⟩, ?_⟩
  · rw [hstate hp] at hs ⊢
    exact h.settled.parked p hp hs
  · rw [hstate hp] at hs
    exact h.settled.running p hp hs
  · have hc := hstate h.settled.current_mem
    obtain ⟨h1, h2⟩ := h.settled.free hy hi
    exact ⟨by rwa [← hc] at h1, h2⟩
  · exact fun e => h.settled.halted hy ((hstate h.settled.current_mem).symm.trans e)
  · rw [hne hp] at hpar
    exact h.orphan p hp hpar
  · rw [hstate hp] at hd
    rw [hfd hp]
    exact h.dead_slots p hp hd i
  · obtain ⟨i, hi⟩ := h.waiters hm
    refine ⟨i, ?_⟩
    rwa [slotRef, slot, hfd (h.base.wait_place hm).1]
  · exact h.ends.congr (fun s hs => hfd (View.mem_slots.mp hs) s.2) (fun _ _ => rfl)
      (fun _ => rfl) fun _ hf => hf

structure Prepared (k : Kernel) (V : View) (a : Nat) : Prop where
  out : a ∉ V.ring
  alive_proc : alive k.log (.process a) = true
  pid_lt : (k.procs a).pid < k.nextPid
  pid_new : ∀ p ∈ V.ring, (k.procs p).pid ≠ (k.procs a).pid
  ready : k.stateOf a = .ready
  parent : (k.procs a).parent ≠ none

def joined (V : View) (a : Nat) : View := { V with ring := V.ring ++ [a] }.enqueue 0 a

/-- A prepared process joins the ring. -/
theorem Layer.enqueueProcess (h : Layer k V) (hp : Prepared k V a) :
    Base (k.enqueueProcess a) { V with ring := V.ring ++ [a] } := by
  obtain ⟨hd, -, hh⟩ := h.base.ringOk.ring.head_of_mem h.base.ringOk.idle_mem
  obtain ⟨hframe, hq⟩ := enqueueProcess_frame (a := a) hh
  refine h.base.congrRing
    (h.base.ringOk.enqueueProcess hp.out hp.alive_proc hp.pid_lt hp.pid_new)
    (fun p hq => mem_append_left _ (h.base.queued_mem hq)) (frame_idle hframe) hq
    (fun w hw => .inl ⟨frame_log hframe ▸ hw, frame_waitq hframe w⟩)
    (fun w hw => h.base.links.wait_none w (frame_log hframe ▸ hw))
    (fun p _ => enqueueProcess_proj Process.sched (fun _ _ _ => rfl) k a p)
    fun _ p _ => enqueueProcess_proj Process.priority (fun _ _ _ => rfl) k a p

/-- What `launch` does. -/
structure Launched (k : Kernel) (V : View) (a : Nat) (k' : Kernel) : Prop where
  base : Base k' (joined V a)
  frame : k'.frame = k.frame
  life : ∀ p, (k'.procs p).life = (k.procs p).life
  state : ∀ p, k'.stateOf p = if p = a then .ready else k.stateOf p

theorem Layer.launched (h : Layer k V) (hp : Prepared k V a) : Launched k V a (k.launch a) := by
  have hb1 := h.enqueueProcess hp
  obtain ⟨hd, -, hh⟩ := h.base.ringOk.ring.head_of_mem h.base.ringOk.idle_mem
  have hf1 := (enqueueProcess_frame (a := a) hh).1
  have hnq : ¬({ V with ring := V.ring ++ [a] } : View).Queued a :=
    fun hq => hp.out (h.base.queued_mem hq)
  have hai : a ≠ k.idle := fun e => hp.out (e ▸ h.base.ringOk.idle_mem)
  set k₁ := k.enqueueProcess a with hk₁
  set k₂ := k₁.modify a fun x => { x with priority := 0, ticksExecuted := 0 } with hk₂
  have hb2 : Base k₂ { V with ring := V.ring ++ [a] } :=
    hb1.modify (hb1.ringOk.modify rfl rfl rfl) hnq (by rwa [frame_idle hf1])
  have hproj : ∀ {β : Type} (π : Process → β), (∀ x n m p t, π { x with
      next := n, prev := m, priority := p, ticksExecuted := t } = π x) →
      ∀ q, π (k₂.procs q) = π (k.procs q) := fun π hπ q =>
    (modify_proj (k := k₁) π (hπ _ _ _ _ _)).trans
      (enqueueProcess_proj π (fun x n m => hπ x n m _ _) k a q)
  have hstate : ∀ q, k₂.stateOf q = k.stateOf q := hproj Process.state fun _ _ _ _ _ => rfl
  have hw := hb2.enqueue (p := a) (mem_append_right _ (mem_singleton_self a))
    (by rw [show k₂.idle = k.idle from frame_idle hf1]; exact hai)
    (by rw [hstate, hp.ready]; decide) (fun i hm => hnq (.inl ⟨i, hm⟩))
    fun w hm => hnq (.inr ⟨w, hm⟩)
  rw [show (k₂.procs a).priority = 0 from congrArg Process.priority modify_same] at hw
  refine ⟨hw.base, (mlfqEnqueue_frame k₂ a).trans hf1, fun q => ?_, fun q => ?_⟩
  · exact (congrArg (fun x : Process => { x with next := 0, prev := 0 })
      (rest_proc hw.rest q)).trans (hproj Process.life (fun _ _ _ _ _ => rfl) q)
  · refine (hw.state q).trans ?_
    simp only [hstate, Set.mem_singleton_iff]

section Launched

variable {k' : Kernel} (hl : Launched k V a k')

include hl

theorem Launched.fd (p : Nat) (i : Fin maxFds) : k'.fd p i = k.fd p i :=
  (congrFun (congrArg Process.fdTable (hl.life p)) i :)

theorem Launched.parent (p : Nat) : (k'.procs p).parent = (k.procs p).parent :=
  (congrArg Process.parent (hl.life p) :)

/-- A process that has joined is in its place, and so are the others. -/
theorem Launched.layer (h : Layer k V) (hp : Prepared k V a) : Layer k' (joined V a) := by
  have hcur := frame_current hl.frame
  have hidle := frame_idle hl.frame
  have hmem : ∀ {p}, p ∈ (joined V a).ring → p ∈ V.ring ∨ p = a := fun hm =>
    (mem_append.mp hm).imp_right mem_singleton.mp
  have hca : k.current ≠ a := fun e => hp.out (e ▸ h.settled.current_mem)
  refine ⟨hl.base, ⟨?_, fun p hm w hs => ?_, fun p hm hs => ?_, fun hy hi => ?_, fun hy => ?_⟩,
    fun p hm hpar => ?_, fun p hm hdead i => ?_, fun {x r p} hm => ?_⟩
  · rw [hcur]
    exact mem_append_left _ h.settled.current_mem
  · rw [hl.state] at hs ⊢
    split at hs
    next => exact absurd hs.symm w.state_ne.1
    next hpa =>
      rw [if_neg hpa]
      exact h.settled.parked p ((hmem hm).resolve_right hpa) hs
  · rw [hl.state] at hs
    split at hs
    next => cases hs
    next hpa =>
      rw [hcur, hidle]
      exact h.settled.running p ((hmem hm).resolve_right hpa) hs
  · rw [hcur, hidle] at hi
    obtain ⟨h1, h2⟩ := h.settled.free (frame_yielding hl.frame ▸ hy) hi
    rw [hcur, hl.state, if_neg hca]
    refine ⟨h1, fun i hm => ?_⟩
    rcases View.mem_enqueue.mp hm with hm | hm
    · exact h2 i hm
    · exact hca hm.1
  · rw [hcur, hl.state, if_neg hca]
    exact h.settled.halted (frame_yielding hl.frame ▸ hy)
  · rw [hl.parent] at hpar
    rw [hidle]
    rcases hmem hm with hm | rfl
    · exact h.orphan p hm hpar
    · exact absurd hpar hp.parent
  · rw [hl.state] at hdead
    split at hdead
    next => cases hdead
    next hpa =>
      rw [hl.fd]
      exact h.dead_slots p ((hmem hm).resolve_right hpa) hdead i
  · obtain ⟨i, hi⟩ := h.waiters hm
    exact ⟨i, by rwa [slotRef, slot, hl.fd]⟩

theorem Launched.ends {D : Finset Slot} (he : Ends k D) : Ends k' D := by
  have hpipes : k'.pipes = k.pipes := (congrArg (fun x : Kernel => x.pipes) hl.frame :)
  exact he.congr (fun s _ => hl.fd s.1 s.2) (fun x r => by rw [hpipes])
    (fun x => by rw [frame_log hl.frame]) fun x hf => by rwa [frame_log hl.frame]

theorem Launched.lost {p : Nat} (hp : Lost k' (joined V a) p) : Lost k V p := by
  obtain ⟨hr, hi, hs, hn⟩ := hp
  have hpa : p ≠ a := fun e => hn 0 (View.mem_enqueue.mpr (.inr ⟨e, rfl⟩))
  rw [hl.state, if_neg hpa] at hs
  refine ⟨((mem_append.mp hr).resolve_right fun e => hpa (mem_singleton.mp e)),
    frame_idle hl.frame ▸ hi, hs, fun i hm => hn i (View.mem_enqueue.mpr (.inl hm))⟩

end Launched

theorem mem_joined_slots {s : Slot} : s ∈ (joined V a).slots ↔ s ∈ V.slots ∨ s.1 = a := by
  rw [View.mem_slots, View.mem_slots]
  exact mem_append.trans (or_congr_right mem_singleton)

@[simp] theorem place_same {x : Process} : (k.place a x).procs a = x :=
  modify_same (k := { k with nextPid := k.nextPid + 1 })

theorem place_ne {x : Process} {p : Nat} (h : p ≠ a) : (k.place a x).procs p = k.procs p :=
  modify_ne (k := { k with nextPid := k.nextPid + 1 }) h

/-- The fields of a new process are filled in outside the ring. -/
theorem KernelOk.place {x : Process} (h : KernelOk k V) (ha : a ∉ V.ring) :
    KernelOk (k.place a x) V := by
  have h1 : KernelOk { k with nextPid := k.nextPid + 1 } V :=
    h.congr rfl (Nat.le_succ _) h.sameLog
  exact h1.outside ha

theorem KernelOk.prepared {x : Process} (h : KernelOk k V) (ha : a ∉ V.ring)
    (hal : alive k.log (.process a) = true) (hpid : x.pid = k.nextPid) (hs : x.state = .ready)
    (hpar : x.parent ≠ none) : Prepared (k.place a x) V a := by
  refine ⟨ha, hal, ?_, fun p hp => ?_, ?_, by rwa [place_same]⟩
  · rw [place_same, hpid]
    exact Nat.lt_succ_self _
  · rw [place_same, place_ne (ne_of_mem_of_not_mem hp ha), hpid]
    exact (h.base.ringOk.pid_lt p hp).ne
  · exact (congrArg Process.state place_same).trans hs

/-- An address that is handed out is not one of a process. -/
theorem KernelOk.fresh_out (h : KernelOk k V) (hf : k.Fresh .process (some a)) : a ∉ V.ring :=
  fun hm => by
    have := h.base.ringOk.alive_mem a hm
    rw [hf a rfl] at this
    cases this

theorem free_process_ne (ha : a ∉ V.ring) (p : Nat) (hp : p ∈ V.ring) :
    Call.free (.process a) ≠ .free (.process p) := fun e => by
  cases e
  exact ha hp

/-- Only the log has changed. -/
theorem KernelOk.logged {log : List Call} (h : KernelOk k V) (hl : SameLog V k.log log) :
    KernelOk { k with log := log } V := h.congr rfl le_rfl hl

/-- `create_user_process` up to where it launches the process. -/
def created (k : Kernel) (t entry rsp brkStart a st : Nat) : Kernel :=
  let k := ((k.emit (.alloc (.table t))).emit (.alloc (.process a))).emit (.alloc (.stack st))
  k.place a (k.userProcess t entry rsp brkStart st)

theorem KernelOk.created (h : KernelOk k V) (ha : a ∉ V.ring) (t entry rsp brkStart st : Nat) :
    KernelOk (k.created t entry rsp brkStart a st) V ∧
      Prepared (k.created t entry rsp brkStart a st) V a := by
  have hl : SameLog V k.log
      (.alloc (.stack st) :: .alloc (.process a) :: .alloc (.table t) :: k.log) :=
    ((h.sameLog.cons (c := .alloc (.table t)) rfl nofun).cons (c := .alloc (.process a)) rfl
      nofun).cons rfl nofun
  have h1 := h.logged hl
  exact ⟨h1.place ha, h1.prepared ha (by simp) rfl rfl nofun⟩

/-- `create_user_process` either leaves the processes alone or launches one. -/
theorem KernelOk.createUserProcess (h : KernelOk k V) (image : LoadAnswer)
    (proc stack : Option Nat) (hf : k.Fresh .process proc) :
    ∃ V', KernelOk (k.createUserProcess image proc stack).1 V' ∧
      (∀ p, Lost (k.createUserProcess image proc stack).1 V' p → Lost k V p) ∧
      (V' = V ∧ (k.createUserProcess image proc stack).1 =
          { k with log := (k.createUserProcess image proc stack).1.log } ∧
          (k.createUserProcess image proc stack).2 = none ∨
        ∃ t entry rsp brkStart a st, image = .loaded t entry rsp brkStart ∧ proc = some a ∧
          stack = some st ∧ a ∉ V.ring ∧ V' = joined V a ∧
          Launched (k.created t entry rsp brkStart a st) V a
            (k.createUserProcess image proc stack).1 ∧
          (k.createUserProcess image proc stack).2 = some a) := by
  cases image with
  | failed => exact ⟨V, h, fun _ hp => hp, .inl ⟨rfl, rfl, rfl⟩⟩
  | tornDown t =>
    have hl := (h.sameLog.cons (c := .alloc (.table t)) rfl nofun).cons
      (c := .free (.table t)) rfl nofun
    exact ⟨V, h.logged hl, fun _ hp => hp, .inl ⟨rfl, rfl, rfl⟩⟩
  | loaded t entry rsp brkStart =>
    have hl := h.sameLog.cons (c := .alloc (.table t)) rfl nofun
    cases proc with
    | none =>
      exact ⟨V, h.logged (hl.cons (c := .free (.table t)) rfl nofun), fun _ hp => hp,
        .inl ⟨rfl, rfl, rfl⟩⟩
    | some a =>
      have ha := h.fresh_out hf
      have hla := hl.cons (c := .alloc (.process a)) rfl nofun
      cases stack with
      | none =>
        have hlf := (hla.cons rfl (free_process_ne ha)).cons (c := .free (.table t)) rfl nofun
        exact ⟨V, h.logged hlf, fun _ hp => hp, .inl ⟨rfl, rfl, rfl⟩⟩
      | some st =>
        obtain ⟨h1, hp⟩ := h.created ha t entry rsp brkStart st
        have hlaunch := h1.toLayer.launched hp
        refine ⟨joined V a, ⟨hlaunch.layer h1.toLayer hp, hlaunch.ends ?_⟩, fun p hlost => ?_,
          .inr ⟨t, entry, rsp, brkStart, a, st, rfl, rfl, rfl, ha, rfl, hlaunch, rfl⟩⟩
        · -- the descriptors of the new process are zeroed
          refine h1.ends.resize (fun s hs hn => ?_) fun s hs hn =>
            (hn (mem_joined_slots.mpr (.inl hs))).elim
          have hsa := (mem_joined_slots.mp hs).resolve_left hn
          have hz : (k.created t entry rsp brkStart a st).slot s = .zero := by
            rw [slot, fd, hsa, Kernel.created, place_same]
            rfl
          rw [slotRef, hz]
          exact ⟨ok_of_none rfl rfl, rfl⟩
        · have hlo := hlaunch.lost hlost
          have hpa : (k.created t entry rsp brkStart a st).stateOf p = k.stateOf p :=
            congrArg Process.state (place_ne (ne_of_mem_of_not_mem hlo.1 ha))
          exact ⟨hlo.1, hlo.2.1, hpa ▸ hlo.2.2.1, hlo.2.2.2⟩

end Launch

/-! ## `clone_process` -/

section Clone

variable {k : Kernel} {V : View} {a parent : Nat}

/-- The loop over the descriptors of the child touches the pipes only. -/
theorem dupEnds_eq (a : Nat) (L : List (Fin maxFds)) (k : Kernel) :
    ∃ P, L.foldl (fun k i => k.dupEnd (k.fd a i)) k = { k with pipes := P } := by
  induction L generalizing k with
  | nil => exact ⟨k.pipes, rfl⟩
  | cons i L ih =>
    obtain ⟨P, hP⟩ : ∃ P, k.dupEnd (k.fd a i) = { k with pipes := P } := by
      unfold dupEnd
      split
      · exact ⟨_, rfl⟩
      · exact ⟨_, rfl⟩
      · exact ⟨k.pipes, rfl⟩
    rw [foldl_cons, hP]
    exact ih _

theorem Base.moved_dupEnds (h : Base k V) (a : Nat) (L : List (Fin maxFds)) :
    Moved ∅ k V (L.foldl (fun k i => k.dupEnd (k.fd a i)) k) V := by
  induction L generalizing k with
  | nil => exact (Woke.refl h).toMoved
  | cons i L ih =>
    have h1 := h.moved_dup (k.fd a i)
    have h2 := h1.trans (ih h1.base)
    rwa [Set.union_empty] at h2

theorem KernelOk.cloneSpace (h : KernelOk k V) (parent flags : Nat) (ans : CloneAnswer) :
    (k.cloneSpace parent flags ans).1.kept = k.kept ∧
      SameLog V k.log (k.cloneSpace parent flags ans).1.log ∧
      (k.cloneSpace parent flags ans).1.nextPid = k.nextPid := by
  unfold Kernel.cloneSpace
  split
  · split
    · exact ⟨rfl, h.sameLog, rfl⟩
    · split
      · exact ⟨rfl, h.sameLog, rfl⟩
      next c _ =>
        have hk : ((k.emit (.alloc (.counter c))).modify parent fun x =>
          { x with vmRefcount := some c }).kept = k.kept := modify_kept rfl
        exact ⟨hk, h.sameLog.cons (c := .alloc (.counter c)) rfl nofun, rfl⟩
  · split
    · exact ⟨rfl, h.sameLog, rfl⟩
    next t _ => exact ⟨rfl, h.sameLog.cons (c := .alloc (.table t)) rfl nofun, rfl⟩

/-- `clone_process` from the allocation of the child up to where it launches it. -/
def cloned (k : Kernel) (parent childStack table : Nat) (counter : Option Nat) (a st : Nat) :
    Kernel :=
  let k := (k.emit (.alloc (.process a))).emit (.alloc (.stack st))
  ((k.place a (k.childOf parent childStack table counter st)).bumpCounter counter).dupEnds a

theorem bumpCounter_eq (counter : Option Nat) :
    k.bumpCounter counter = { k with counters := (k.bumpCounter counter).counters } := by
  cases counter <;> rfl

/-- Everything but the counters and the pipes is as it is when the child is filled in. -/
theorem cloned_eq (k : Kernel) (parent a childStack table : Nat) (counter : Option Nat) (st : Nat) :
    ∃ P, k.cloned parent childStack table counter a st =
      { ((k.emit (.alloc (.process a))).emit (.alloc (.stack st))).place a
          (k.childOf parent childStack table counter st) with
        counters := (k.bumpCounter counter).counters
        pipes := P } := by
  unfold cloned dupEnds
  rw [bumpCounter_eq]
  obtain ⟨P, hP⟩ := dupEnds_eq a (finRange maxFds) { ((k.emit (.alloc (.process a))).emit
    (.alloc (.stack st))).place a (k.childOf parent childStack table counter st) with
      counters := (k.bumpCounter counter).counters }
  refine ⟨P, ?_⟩
  cases counter <;> exact hP

theorem KernelOk.cloned (h : KernelOk k V) (hy : k.yielding = false) (hpar : parent ∈ V.ring)
    (ha : a ∉ V.ring) (childStack table : Nat) (counter : Option Nat) (st : Nat) :
    Layer (k.cloned parent childStack table counter a st) V ∧
      Prepared (k.cloned parent childStack table counter a st) V a ∧
      Ends (k.cloned parent childStack table counter a st) (joined V a).slots := by
  have h1 := h.logged ((h.sameLog.cons (c := .alloc (.process a)) rfl nofun).cons
    (c := .alloc (.stack st)) rfl nofun)
  set x := k.childOf parent childStack table counter st with hx
  set k₁ := ((k.emit (.alloc (.process a))).emit (.alloc (.stack st))).place a x with hk₁
  have h2 : KernelOk k₁ V := h1.place ha
  have hp : Prepared k₁ V a := h1.prepared ha (by simp) rfl rfl nofun
  have h3 : KernelOk { k₁ with counters := (k₁.bumpCounter counter).counters } V :=
    h2.congr rfl le_rfl h2.sameLog
  rw [← bumpCounter_eq] at h3
  set k₂ := k₁.bumpCounter counter with hk₂
  have heq : k₂ = { k₁ with counters := k₂.counters } := bumpCounter_eq counter
  have hm := h3.base.moved_dupEnds a (finRange maxFds)
  obtain ⟨P, hP⟩ := dupEnds_eq a (finRange maxFds) k₂
  have hslot : ∀ i, k₂.slot (a, i) = k.slot (parent, i) := fun i => by
    rw [heq, slot, fd, show k₁.procs a = x from place_same]
    rfl
  refine ⟨h3.toLayer.moved hm (by rw [heq]; exact hy) (fun hc => hc.elim)
    fun p _ _ i => (congrArg (fun k : Kernel => k.fd p i) hP :), ?_, ?_⟩
  · have heq' : k.cloned parent childStack table counter a st =
      { k₁ with counters := k₂.counters, pipes := P } := hP.trans (by rw [heq])
    rw [heq']
    exact ⟨hp.out, hp.alive_proc, hp.pid_lt, hp.pid_new, hp.ready, hp.parent⟩
  · have hpm : ∀ i, ((parent, i) : Slot) ∈ V.slots := fun i => View.mem_slots.mpr hpar
    have he := h3.ends.dupEnds (a := a) (L := finRange maxFds) (nodup_finRange _)
      (fun i _ hm => ha (View.mem_slots.mp hm)) (fun i _ => hslot i ▸ h.ends.ok _ (hpm i))
      fun i _ x r hr => by
        rw [slotRef, hslot] at hr
        rw [h3.sameLog.pipes, heq]
        exact (h.sameLog.pipes x).trans (h.ends.live _ (hpm i) hr)
    have hset : (joined V a).slots =
        V.slots ∪ (finRange maxFds).toFinset.image fun i => (a, i) := by
      ext s
      rw [mem_joined_slots, Finset.mem_union, Finset.mem_image]
      refine or_congr_right ⟨fun e => ⟨s.2, by simp, Prod.ext e.symm rfl⟩, ?_⟩
      rintro ⟨i, -, rfl⟩
      rfl
    rw [hset]
    exact he

/-- A copied table is torn down again. -/
theorem cloneUndo_log {log : List Call} (hl : SameLog V log k.log) (table : Nat)
    (counter : Option Nat) :
    ∃ log', k.cloneUndo table counter = { k with log := log' } ∧ SameLog V log log' := by
  cases counter with
  | none => exact ⟨_, rfl, hl.cons (c := .free (.table table)) rfl nofun⟩
  | some c => exact ⟨_, rfl, hl⟩

/-- `clone_process` either launches no process or launches the child. -/
theorem KernelOk.cloneProcess (h : KernelOk k V) (hy : k.yielding = false) (hpar : parent ∈ V.ring)
    (flags childStack : Nat) (ans : CloneAnswer) (hf : k.Fresh .process ans.child) :
    ∃ V', KernelOk (k.cloneProcess parent flags childStack ans).1 V' ∧
      (∀ p, Lost (k.cloneProcess parent flags childStack ans).1 V' p → Lost k V p) ∧
      (V' = V ∧ (k.cloneProcess parent flags childStack ans).1 =
          { (k.cloneSpace parent flags ans).1 with
            log := (k.cloneProcess parent flags childStack ans).1.log } ∧
          (k.cloneProcess parent flags childStack ans).2 = none ∨
        ∃ k₁ table counter a st, k.cloneSpace parent flags ans = (k₁, some (table, counter)) ∧
          ans.child = some a ∧ ans.stack = some st ∧ a ∉ V.ring ∧ V' = joined V a ∧
          Launched (k₁.cloned parent childStack table counter a st) V a
            (k.cloneProcess parent flags childStack ans).1 ∧
          (k.cloneProcess parent flags childStack ans).2 = some a) := by
  obtain ⟨hk, hl, hpid⟩ := h.cloneSpace parent flags ans
  unfold Kernel.cloneProcess
  generalize hsp : k.cloneSpace parent flags ans = space at *
  obtain ⟨k₁, sp⟩ := space
  have h1 : KernelOk k₁ V := h.congr hk hpid.ge hl
  have hlost : ∀ p, Lost k₁ V p → Lost k V p := fun p hp => hp.congr hk
  cases sp with
  | none => exact ⟨V, h1, hlost, .inl ⟨rfl, rfl, rfl⟩⟩
  | some tc =>
    obtain ⟨table, counter⟩ := tc
    dsimp only at *
    generalize hchild : ans.child = child at *
    cases child with
    | none =>
      obtain ⟨log, he, hlog⟩ := cloneUndo_log h1.sameLog table counter
      rw [he]
      exact ⟨V, h1.logged hlog, hlost, .inl ⟨rfl, rfl, rfl⟩⟩
    | some a =>
      have ha : a ∉ V.ring := h.fresh_out hf
      generalize hstack : ans.stack = stack at *
      cases stack with
      | none =>
        obtain ⟨log, he, hlog⟩ := cloneUndo_log
          (k := (k₁.emit (.alloc (.process a))).emit (.free (.process a)))
          ((h1.sameLog.cons (c := .alloc (.process a)) rfl nofun).cons rfl
            (free_process_ne ha)) table counter
        dsimp only
        rw [he]
        exact ⟨V, h1.logged hlog, hlost, .inl ⟨rfl, rfl, rfl⟩⟩
      | some st =>
        have hy1 : k₁.yielding = false :=
          (congrArg (fun x : Kernel => x.yielding) hk :).trans hy
        obtain ⟨hlayer, hp, he⟩ := h1.cloned hy1 hpar ha childStack table counter st
        have hlaunch := hlayer.launched hp
        refine ⟨joined V a, ⟨hlaunch.layer hlayer hp, hlaunch.ends he⟩, fun p hm => ?_,
          .inr ⟨k₁, table, counter, a, st, rfl, rfl, rfl, ha, rfl, hlaunch, rfl⟩⟩
        have hlo := hlaunch.lost hm
        obtain ⟨P, hP⟩ := cloned_eq k₁ parent a childStack table counter st
        have hpa : (k₁.cloned parent childStack table counter a st).stateOf p =
            k₁.stateOf p := by
          rw [hP]
          exact congrArg Process.state (place_ne (ne_of_mem_of_not_mem hlo.1 ha))
        refine hlost p ⟨hlo.1, ?_, hpa ▸ hlo.2.2.1, hlo.2.2.2⟩
        have hi := hlo.2.1
        rw [hP] at hi
        exact hi

end Clone

end Kernel

end Aeryk
