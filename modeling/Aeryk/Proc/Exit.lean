import Aeryk.Proc.Population

/-!
# Exit and reaping

A process that exits gives back its descriptors and stays in the ring until its parent
reaps it.  `wait_reap_child` goes around the ring and takes out the first dead child that
was asked for.
-/

namespace Aeryk

open List Lib

namespace Kernel

/-! ## Leaving the ring -/

section Unlink

variable {k : Kernel} {V : View} {p : Nat} {l : List Nat}

theorem unlink_eq (k : Kernel) (p : Nat) : k.unlink p =
    { k with procs := (k.unlink p).procs, processQueue := (k.unlink p).processQueue } := by
  unfold unlink
  dsimp only
  split <;> rfl

theorem unlink_procs (k : Kernel) (p : Nat) :
    let k₁ := k.modify (k.procs p).prev fun x => { x with next := (k.procs p).next }
    (k.unlink p).procs =
      (k₁.modify (k₁.procs p).next fun x => { x with prev := (k₁.procs p).prev }).procs := by
  unfold unlink
  dsimp only
  split <;> rfl

/-- What leaving the ring keeps of every process. -/
theorem unlink_proj {β : Type} (π : Process → β)
    (h : ∀ x n m, π { x with next := n, prev := m } = π x) (k : Kernel) (p q : Nat) :
    π ((k.unlink p).procs q) = π (k.procs q) := by
  rw [unlink_procs, modify_proj π (h _ _ _), modify_proj π (h _ _ _)]

/-- The two neighbours are linked to each other. -/
theorem unlink_links (k : Kernel) (p q : Nat) :
    ((k.unlink p).procs q).next =
      (if q = (k.procs p).prev then (k.procs p).next else (k.procs q).next) ∧
    ((k.unlink p).procs q).prev =
      (if q = (k.procs p).next then (k.procs p).prev else (k.procs q).prev) := by
  rw [unlink_procs]
  set k₁ := k.modify (k.procs p).prev fun x => { x with next := (k.procs p).next } with hk₁
  have hprev : ∀ q, (k₁.procs q).prev = (k.procs q).prev :=
    fun q => modify_proj Process.prev rfl
  have hnext : ∀ q, (k₁.procs q).next =
      if q = (k.procs p).prev then (k.procs p).next else (k.procs q).next := fun q => by
    split
    next h => rw [hk₁, h, modify_same]
    next h => rw [hk₁, modify_ne h]
  have hp : (k₁.procs p).next = (k.procs p).next := by
    rw [hnext]
    split <;> rfl
  rw [hp, hprev p]
  refine ⟨(modify_proj Process.next rfl).trans (hnext q), ?_⟩
  split
  next h => rw [h, modify_same]
  next h => rw [modify_ne h, hprev]

theorem unlink_processQueue (k : Kernel) (p : Nat) : (k.unlink p).processQueue =
    if k.processQueue = some p then
      (if (k.procs p).next ≠ p then some (k.procs p).next else none)
    else k.processQueue := by
  have hnext : ((k.unlink p).procs p).next = (k.procs p).next := by
    rw [(unlink_links k p p).1]
    split <;> rfl
  rw [unlink_procs] at hnext
  unfold unlink
  dsimp only at hnext ⊢
  rw [hnext]
  split
  next h => exact (if_pos h).symm
  next h => exact (if_neg h).symm

/-- The ring without the process, from the head it has now. -/
theorem unlink_ring
    (hr : Ring (fun q => (k.procs q).next) (fun q => (k.procs q).prev) k.processQueue l)
    (hp : p ∈ l) :
    Ring (fun q => ((k.unlink p).procs q).next) (fun q => ((k.unlink p).procs q).prev)
      (k.unlink p).processQueue (l.erase p) := by
  obtain ⟨l₁, l₂, rfl⟩ := append_of_mem hp
  have hp₁ : p ∉ l₁ := fun hm => by
    have := (nodup_append.mp hr.nodup).2.2 p hm p mem_cons_self
    exact this rfl
  have herase : (l₁ ++ p :: l₂).erase p = l₁ ++ l₂ := by
    rw [erase_append_right _ hp₁, erase_cons_head]
  obtain ⟨h, -, hh⟩ := hr.head_of_mem hp
  rw [hh] at hr
  have hlinks := unlink_links k p
  have hrem := hr.remove (fun b _ => (hlinks b).1) fun b _ => (hlinks b).2
  have hq := unlink_processQueue k p
  rw [hh] at hq
  simp only [Option.some.injEq] at hq
  rw [herase, hq]
  exact hrem

theorem RingOk.unlink (hr : RingOk k l) (hp : p ∈ l) (hi : p ≠ k.idle) :
    RingOk (k.unlink p) (l.erase p) := by
  have hsub : ∀ {q}, q ∈ l.erase p → q ∈ l := fun hm => mem_of_mem_erase hm
  have hpid := unlink_proj Process.pid (fun _ _ _ => rfl) k p
  have hring := unlink_ring hr.ring hp
  rw [unlink_eq] at hring ⊢
  refine ⟨hring, fun q hq => ?_, fun q hq r hr' e => ?_, fun q hq => hr.alive_mem q (hsub hq), ?_⟩
  · rw [hpid]
    exact hr.pid_lt q (hsub hq)
  · rw [hpid, hpid] at e
    exact hr.pid_inj q (hsub hq) r (hsub hr') e
  · exact (mem_erase_of_ne (Ne.symm hi)).mpr hr.idle_mem

end Unlink

/-! ## Reaping -/

section Reap

variable {k : Kernel} {V : View} {p : Nat}

def without (V : View) (p : Nat) : View := { V with ring := V.ring.erase p }

theorem Base.mem_without {q : Nat} (h : Base k V) :
    q ∈ (without V p).ring ↔ q ∈ V.ring ∧ q ≠ p := by
  show q ∈ V.ring.erase p ↔ _
  rw [h.ringOk.ring.nodup.mem_erase_iff]
  exact And.comm

theorem Base.dead_not_queued (h : Base k V) (hd : k.stateOf p = .dead) : ¬V.Queued p := by
  rintro (⟨i, hm⟩ | ⟨w, hm⟩)
  · exact absurd (hd.symm.trans (h.ready_place hm).2.2.1) (by decide)
  · exact w.state_ne.2.2.2 ((h.wait_place hm).2.2.symm.trans hd)

theorem Base.dead_ne_idle (h : Base k V) (hd : k.stateOf p = .dead) : p ≠ k.idle := fun e => by
  rw [e, h.idle_running] at hd
  cases hd

/-- A dead process leaves the ring. -/
theorem KernelOk.unlink (h : KernelOk k V) (hp : p ∈ V.ring) (hd : k.stateOf p = .dead)
    (hc : p ≠ k.current) : KernelOk (k.unlink p) (without V p) := by
  have hring := h.base.ringOk.unlink hp (h.base.dead_ne_idle hd)
  have hmem : ∀ {q}, q ∈ (without V p).ring ↔ q ∈ V.ring ∧ q ≠ p := h.base.mem_without
  have hkeep : ∀ {β : Type} (π : Process → β), (∀ x n m, π { x with next := n, prev := m } = π x) →
      ∀ q, π ((k.unlink p).procs q) = π (k.procs q) := fun π hπ q => unlink_proj π hπ k p q
  have hstate : ∀ q, (k.unlink p).stateOf q = k.stateOf q := hkeep Process.state fun _ _ _ => rfl
  have hfd : ∀ q i, (k.unlink p).fd q i = k.fd q i := fun q i =>
    congrFun (hkeep Process.fdTable (fun _ _ _ => rfl) q) i
  have hpar := hkeep Process.parent fun _ _ _ => rfl
  have hsched := hkeep Process.sched fun _ _ _ => rfl
  have hprio := hkeep Process.priority fun _ _ _ => rfl
  rw [unlink_eq] at *
  refine ⟨⟨h.base.congrRing hring (fun q hq => hmem.mpr ⟨h.base.queued_mem hq, ?_⟩) rfl rfl
    (fun w hw => .inl ⟨hw, by cases w <;> rfl⟩) h.base.links.wait_none (fun q _ => hsched q)
    fun _ q _ => hprio q, ⟨hmem.mpr ⟨h.settled.current_mem, Ne.symm hc⟩, fun q hm w hs => ?_,
    fun q hm hs => ?_, fun hy hi => ?_, fun hy => ?_⟩, fun q hm he => ?_,
    fun q hm hdead i => ?_, fun {x r q} hm => ?_⟩, ?_⟩
  · rintro rfl
    exact h.base.dead_not_queued hd hq
  · rw [hstate] at hs ⊢
    exact h.settled.parked q (hmem.mp hm).1 hs
  · rw [hstate] at hs
    exact h.settled.running q (hmem.mp hm).1 hs
  · rw [hstate]
    exact h.settled.free hy hi
  · rw [hstate]
    exact h.settled.halted hy
  · rw [hpar] at he
    exact h.orphan q (hmem.mp hm).1 he
  · rw [hstate] at hdead
    rw [hfd]
    exact h.dead_slots q (hmem.mp hm).1 hdead i
  · obtain ⟨i, hi⟩ := h.waiters hm
    exact ⟨i, by rwa [slotRef, slot, hfd]⟩
  · have he : Ends k (without V p).slots := h.ends.resize
      (fun s hs hn => (hn (View.mem_slots.mpr (hmem.mp (View.mem_slots.mp hs)).1)).elim)
      fun s hs hn => by
        have hsp : s.1 = p := by_contra fun hne =>
          hn (View.mem_slots.mpr (hmem.mpr ⟨View.mem_slots.mp hs, hne⟩))
        have := h.dead_slots p hp hd s.2
        exact ref_none_of_type (.inl (by rw [slot, hsp]; exact this))
    exact he.congr (fun s _ => hfd s.1 s.2) (fun _ _ => rfl) (fun _ => rfl) fun _ hf => hf

/-- `destroy_process_vm` touches the counters and the log only. -/
theorem destroyProcessVm_eq {log : List Call} (hl : SameLog V log k.log) (p : Nat) :
    ∃ C L, k.destroyProcessVm p = { k with counters := C, log := L } ∧ SameLog V log L := by
  unfold destroyProcessVm
  dsimp only
  split
  · exact ⟨_, _, rfl, hl⟩
  split
  · exact ⟨_, _, rfl, hl.cons (c := .free (.table _)) rfl nofun⟩
  next c _ =>
    split
    · exact ⟨_, _, rfl, hl⟩
    · exact ⟨_, _, rfl, (hl.cons (c := .free (.counter c)) rfl nofun).cons
        (c := .free (.table _)) rfl nofun⟩

/-- A dead process is taken out of the ring and freed. -/
theorem KernelOk.reap (h : KernelOk k V) (hp : p ∈ V.ring) (hd : k.stateOf p = .dead)
    (hc : p ≠ k.current) : KernelOk (k.reap p) (without V p) ∧
      (k.reap p).kept = (k.unlink p).kept ∧ (k.reap p).procs = (k.unlink p).procs := by
  have h1 := h.unlink hp hd hc
  have hl := h1.sameLog.cons (c := .free (.stack (k.procs p).kernelStack)) rfl nofun
  obtain ⟨C, L, he, hlog⟩ := destroyProcessVm_eq
    (k := (k.unlink p).emit (.free (.stack (k.procs p).kernelStack))) hl p
  have heq : k.reap p = { k.unlink p with counters := C, log := .free (.process p) :: L } := by
    unfold Kernel.reap
    dsimp only
    rw [he]
    rfl
  rw [heq]
  refine ⟨h1.congr rfl le_rfl (hlog.cons rfl fun q hq e => ?_), rfl, rfl⟩
  cases e
  exact (h.base.mem_without.mp hq).2 rfl

/-- The child that `wait_reap_child` reaps: the first dead one in `process_queue` among
those asked for. -/
def waitTarget (k : Kernel) (parent : Nat) (pid : Int) : Option Nat :=
  k.processes.find? fun p =>
    (k.procs p).parent = some parent ∧ k.stateOf p = .dead ∧ (pid ≤ 0 ∨ pid = (k.procs p).pid)

/-- The search of `wait_reap_child` looks at the processes it walks past. -/
theorem findChild_fst {parent : Nat} {pid : Int} (n cand : Nat) (b : Bool) :
    (k.findChild parent pid n cand b).1 = (walk (fun p => (k.procs p).next) n cand).find? fun p =>
      (k.procs p).parent = some parent ∧ k.stateOf p = .dead ∧
        (pid ≤ 0 ∨ pid = (k.procs p).pid) := by
  induction n generalizing cand b with
  | zero => rfl
  | succ n ih =>
    unfold findChild walk
    rw [find?_cons]
    split
    next hpar =>
      rw [ih, decide_eq_false fun h => hpar h.1]
    next hpar =>
      split
      next hdead => rw [decide_eq_true ⟨not_not.mp hpar, hdead⟩]
      next hdead => rw [ih, decide_eq_false fun h => hdead h.2]

theorem KernelOk.waitTarget_spec {parent : Nat} {pid : Int} (h : KernelOk k V) {found : Nat}
    (hf : k.waitTarget parent pid = some found) :
    found ∈ V.ring ∧ (k.procs found).parent = some parent ∧ k.stateOf found = .dead := by
  unfold waitTarget at hf
  have hp := find?_some hf
  rw [decide_eq_true_iff] at hp
  exact ⟨h.base.ringOk.processes_eq ▸ mem_of_find?_eq_some hf, hp.1, hp.2.1⟩

/-- `wait_reap_child` reaps its target, if there is one. -/
theorem waitReapChild_eq (k : Kernel) (parent : Nat) (pid : Int) :
    match k.waitTarget parent pid with
    | none => (k.waitReapChild parent pid).1 = k ∧
      ∀ x c, (k.waitReapChild parent pid).2 ≠ .reaped x c
    | some found => k.waitReapChild parent pid =
      (k.reap found, .reaped (k.procs found).pid (k.procs found).exitCode) := by
  unfold waitTarget processes Kernel.waitReapChild
  cases k.processQueue with
  | none => exact ⟨rfl, nofun⟩
  | some node =>
    dsimp only
    rw [← findChild_fst _ _ false]
    generalize k.findChild parent pid (k.ringCount node) node false = r
    obtain ⟨found, b⟩ := r
    cases found with
    | none =>
      refine ⟨rfl, fun x c => ?_⟩
      cases b <;> exact nofun
    | some found => rfl

/-- The outcomes of `SYS_wait`: the caller blocks or has no child, or a dead child is reaped. -/
theorem sysWait_cases (k : Kernel) (pid : Int) :
    k.waitTarget k.current pid = none ∧ (k.sysWait pid = k.block ∨ k.sysWait pid = k) ∨
      ∃ f, k.waitTarget k.current pid = some f ∧ k.sysWait pid = k.reap f := by
  unfold sysWait
  have htarget := waitReapChild_eq k k.current pid
  cases ht : k.waitTarget k.current pid with
  | none =>
    rw [ht] at htarget
    obtain ⟨heq, hne⟩ := htarget
    generalize k.waitReapChild k.current pid = r at *
    obtain ⟨k₁, res⟩ := r
    obtain rfl : k₁ = k := heq
    cases res with
    | none => exact .inl ⟨rfl, .inl rfl⟩
    | noChild => exact .inl ⟨rfl, .inr rfl⟩
    | reaped x c => exact absurd rfl (hne x c)
  | some f =>
    rw [ht] at htarget
    rw [htarget]
    exact .inr ⟨f, rfl, rfl⟩

theorem reap_lost (h : Base k V) {q : Nat} (hk : (k.reap p).kept = (k.unlink p).kept)
    (hl : Lost (k.reap p) (without V p) q) : Lost k V q := by
  obtain ⟨h1, h2, h3, h4⟩ := hl.congr hk
  refine ⟨(h.mem_without.mp h1).1, ?_, ?_, h4⟩
  · rwa [unlink_eq] at h2
  · exact (unlink_proj Process.state (fun _ _ _ => rfl) k p q).symm.trans h3

end Reap

/-! ## Exit -/

section Exit

variable {k : Kernel} {V : View}

theorem fbmapReleaseOwner_kept (pid : Nat) : (k.fbmapReleaseOwner pid).kept = k.kept := by
  unfold fbmapReleaseOwner
  split <;> rfl

theorem fbmapReleaseOwner_log (pid : Nat) : (k.fbmapReleaseOwner pid).log = k.log := by
  unfold fbmapReleaseOwner
  split <;> rfl

theorem fbmapReleaseOwner_nextPid (pid : Nat) : (k.fbmapReleaseOwner pid).nextPid = k.nextPid := by
  unfold fbmapReleaseOwner
  split <;> rfl

/-- A process without descriptors that is on no queue dies. -/
theorem KernelOk.die (h : KernelOk k V) (hy : k.yielding = false) (hi : k.current ≠ k.idle)
    (hnone : ∀ i, (k.fd k.current i).type = .none) (code : Int) :
    KernelOk { k.modify k.current fun x => { x with exitCode := code, state := .dead } with
      yielding := true } V := by
  set k' := k.modify k.current fun x => { x with exitCode := code, state := .dead } with hk'
  have hfree := h.current_free hy
  have hbase : Base k' V := h.base.modify (h.base.ringOk.modify rfl rfl rfl) hfree hi
  have hstate : ∀ p, k'.stateOf p = if p = k.current then .dead else k.stateOf p := fun p => by
    unfold stateOf
    split
    next e => rw [hk', e, modify_same]
    next e => rw [hk', modify_ne e]
  have htable : ∀ p, (k'.procs p).fdTable = (k.procs p).fdTable := fun p =>
    modify_proj Process.fdTable rfl
  have hfd : ∀ p i, k'.fd p i = k.fd p i := fun p i => congrFun (htable p) i
  have hpar : ∀ p, (k'.procs p).parent = (k.procs p).parent := fun p =>
    modify_proj Process.parent rfl
  refine ⟨⟨hbase.setYielding true, ⟨h.settled.current_mem, fun p hp w hs => ?_, fun p hp hs => ?_,
    fun hy' => (by cases hy'), fun _ => ?_⟩, fun p hp hpn => ?_, fun p hp hd i => ?_,
    fun {x r p} hm => ?_⟩,
    h.ends.congr (fun s _ => hfd s.1 s.2) (fun _ _ => rfl) (fun _ => rfl) fun _ hf => hf⟩
  · have hs' : k'.stateOf p = w.state := hs
    show ∃ w' : WaitId, w'.state = k'.stateOf p ∧ _
    rw [hstate] at hs' ⊢
    split at hs'
    next => exact absurd hs'.symm w.state_ne.2.2.2
    next hne =>
      rw [if_neg hne]
      exact h.settled.parked p hp hs'
  · have hs' : k'.stateOf p = .running := hs
    rw [hstate] at hs'
    split at hs'
    next => cases hs'
    next => exact h.settled.running p hp hs'
  · show k'.stateOf k.current ≠ .running
    rw [hstate, if_pos rfl]
    decide
  · exact h.orphan p hp ((hpar p).symm.trans hpn)
  · have hd' : k'.stateOf p = .dead := hd
    rw [hstate] at hd'
    refine (congrArg FileDescriptor.type (hfd p i)).trans ?_
    split at hd'
    next e => rw [e]; exact hnone i
    next => exact h.dead_slots p hp hd' i
  · obtain ⟨i, hi'⟩ := h.waiters hm
    exact ⟨i, (congrArg FileDescriptor.ref (hfd p i)).trans hi'⟩

/-- The end of `SYS_exit` leaves everything about a process alone but its state and its
exit code. -/
theorem exited_proj {β : Type} (π : Process → β)
    (h : ∀ x c s, π { x with exitCode := c, state := s } = π x) (k : Kernel) (me pid : Nat)
    (code : Int) (p : Nat) :
    π ({ (k.fbmapReleaseOwner pid).modify me fun x => { x with exitCode := code, state := .dead }
      with yielding := true }.procs p) = π (k.procs p) := by
  have h1 : π (((k.fbmapReleaseOwner pid).modify me fun x =>
      { x with exitCode := code, state := .dead }).procs p) =
      π ((k.fbmapReleaseOwner pid).procs p) := modify_proj π (h _ _ _)
  refine h1.trans ?_
  unfold fbmapReleaseOwner
  split <;> rfl

/-- `SYS_exit` and the killing of a process by a fault. -/
theorem KernelOk.exitCurrent (h : KernelOk k V) (hy : k.yielding = false)
    (hi : k.current ≠ k.idle) (code : Int) :
    ∃ V' k₁, Served k V k₁ V' ∧ KernelOk (k.exitCurrent code) V' ∧
      k.exitCurrent code = { (k₁.fbmapReleaseOwner (k₁.procs k.current).pid).modify k.current
        fun x => { x with exitCode := code, state := .dead } with yielding := true } := by
  obtain ⟨V', hs, hnone⟩ := h.releaseLoop hy (finRange maxFds)
  obtain ⟨S, hS⟩ := hs.moved
  refine ⟨V', _, hs, ?_, rfl⟩
  set k₁ := (finRange maxFds).foldl (Kernel.releaseFd k.current) k with hk₁
  set k₂ := k₁.fbmapReleaseOwner (k₁.procs k.current).pid with hk₂
  have hkept : k₂.kept = k₁.kept := fbmapReleaseOwner_kept _
  have h2 : KernelOk k₂ V' := hs.ok.congr hkept (fbmapReleaseOwner_nextPid _).ge
    (by rw [hk₂, fbmapReleaseOwner_log]; exact hs.ok.sameLog)
  have hcur : k₂.current = k.current := (kept_current hkept).trans hS.current
  have hdie := h2.die ((congrArg (fun x : Kernel => x.yielding) hkept :).trans
    (hS.yielding.trans hy)) (by rw [hcur, kept_idle hkept, core_idle hS.core]; exact hi)
    (fun i => by rw [hcur, kept_fd hkept]; exact hnone i (.inl (mem_finRange i))) code
  rw [hcur] at hdie
  exact hdie

end Exit

end Kernel

end Aeryk
