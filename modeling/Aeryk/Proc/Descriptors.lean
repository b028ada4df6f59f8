import Aeryk.Proc.Invariant

/-!
# Descriptor calls

`SYS_open`, `SYS_close`, `SYS_pipe`, `SYS_dup`, `SYS_dup2` and the loop of
`process_release_fds` keep the invariant.  `Served` is what they have in common: some
waiters are woken, and no descriptors change but those of the current process.
-/

namespace Aeryk

open Finset Lib

namespace Kernel

section Moved

variable {k : Kernel} {V : View} {x : Nat} {r : Bool}

theorem modify_core {p : Nat} {f : Process → Process}
    (hf : (f (k.procs p)).core = (k.procs p).core) : (k.modify p f).core = k.core := by
  have h1 : (k.modify p f).core =
      { k.core with procs := fun q => ((k.modify p f).procs q).core } := rfl
  rw [h1, funext fun q => modify_proj Process.core hf]
  rfl

theorem Base.moved_setFd (h : Base k V) (p : Nat) (i : Fin maxFds) (d : FileDescriptor) :
    Moved ∅ k V (k.setFd p i d) V := by
  have hcore : (k.setFd p i d).core = k.core := modify_core rfl
  refine Base.stay ?_ hcore rfl rfl (fun q => modify_proj Process.state rfl)
    fun q => modify_proj Process.priority rfl
  exact h.congr (h.ringOk.congr hcore) rfl rfl (fun w hl => .inl ⟨hl, modify_waitq w⟩)
    h.links.wait_none (fun q _ => modify_proj Process.sched rfl)
    fun _ q _ => modify_proj Process.priority rfl

/-- A store to a pipe that leaves its wait queues alone. -/
theorem Base.moved_setPipe {q : Pipe WaitQueue} (h : Base k V)
    (hr : q.readWaiters = (k.pipes x).readWaiters)
    (hw : q.writeWaiters = (k.pipes x).writeWaiters) : Moved ∅ k V (k.setPipe x q) V := by
  have hwaitq : ∀ w, (k.setPipe x q).waitq w = k.waitq w := fun w => by
    cases w with
    | kbd | mouse => rfl
    | pipeRead y =>
      by_cases hy : y = x
      · subst hy
        exact (congrArg Pipe.readWaiters setPipe_same).trans hr
      · exact congrArg Pipe.readWaiters (setPipe_ne hy)
    | pipeWrite y =>
      by_cases hy : y = x
      · subst hy
        exact (congrArg Pipe.writeWaiters setPipe_same).trans hw
      · exact congrArg Pipe.writeWaiters (setPipe_ne hy)
  exact Base.stay (h.congr (h.ringOk.congr rfl) rfl rfl (fun w hl => .inl ⟨hl, hwaitq w⟩)
    h.links.wait_none (fun _ _ => rfl) fun _ _ _ => rfl) rfl rfl rfl (fun _ => rfl) fun _ => rfl

theorem live_free {w : WaitId} {log : List Call} (h : w.Live (.free (.pipe x) :: log)) :
    w.Live log := by
  cases w with
  | kbd | mouse => trivial
  | pipeRead y | pipeWrite y => exact (alive_free_pipe.mp h).2

/-- A pipe that nobody waits for is freed. -/
theorem Base.moved_free (h : Base k V) (hw : ∀ r, V.waiting (.ofEnd x r) = []) :
    Moved ∅ k V (k.emit (.free (.pipe x))) V := by
  refine Base.stay (h.congr (h.ringOk.congr rfl) rfl rfl (fun w hl => .inl ⟨live_free hl, by
    cases w <;> rfl⟩) (fun w hl => ?_) (fun _ _ => rfl) fun _ _ _ => rfl) rfl rfl rfl
    (fun _ => rfl) fun _ => rfl
  by_cases hl' : w.Live k.log
  · cases w with
    | kbd | mouse => exact absurd trivial hl
    | pipeRead y =>
      obtain rfl : y = x := by_contra fun hy => hl (alive_free_pipe.mpr ⟨hy, hl'⟩)
      exact hw true
    | pipeWrite y =>
      obtain rfl : y = x := by_contra fun hy => hl (alive_free_pipe.mpr ⟨hy, hl'⟩)
      exact hw false
  · exact h.links.wait_none w hl'

/-- `pipe_close_end` wakes everybody who waits for the pipe. -/
theorem Base.moved_close (h : Base k V) (hx : alive k.log (.pipe x) = true) :
    ∃ S V', (∀ p ∈ S, ∃ w, p ∈ V.waiting w) ∧ Moved S k V (k.pipeCloseEnd x r) V' := by
  have h1 := h.moved_setPipe (x := x) (q := closeEnd (k.pipes x) r)
    (by cases r <;> rfl) (by cases r <;> rfl)
  obtain ⟨V₂, h2⟩ := h1.base.wakeAll (w := .pipeWrite x) hx
  obtain ⟨V₃, h3⟩ := h2.base.wakeAll (w := .pipeRead x) (by rw [rest_log h2.rest]; exact hx)
  have h123 := (h1.trans h2.toMoved).trans h3.toMoved
  have hempty : ∀ r, V₃.waiting (.ofEnd x r) = [] := fun e => by
    refine List.eq_nil_iff_forall_not_mem.mpr fun p hm => ?_
    obtain ⟨hm, hn⟩ := (h3.waiting _ p).mp hm
    cases e with
    | true => exact hn hm
    | false => exact ((h2.waiting _ p).mp hm).2 ((h2.waiting _ p).mp hm).1
  have hS : ∀ p ∈ ∅ ∪ {p | p ∈ V.waiting (.pipeWrite x)} ∪ {p | p ∈ V₂.waiting (.pipeRead x)},
      ∃ w, p ∈ V.waiting w := by
    rintro p ((hm | hm) | hm)
    · exact hm.elim
    · exact ⟨_, hm⟩
    · exact ⟨_, ((h2.waiting _ p).mp hm).1⟩
  unfold Kernel.pipeCloseEnd
  dsimp only
  split
  · refine ⟨_, V₃, ?_, h123.trans (h3.base.moved_free hempty)⟩
    rw [Set.union_empty]
    exact hS
  · exact ⟨_, V₃, hS, h123⟩

theorem Base.moved_drop {d : FileDescriptor} (h : Base k V)
    (hl : ∀ {x r}, d.ref = some (x, r) → alive k.log (.pipe x) = true) :
    ∃ S V', (∀ p ∈ S, ∃ w, p ∈ V.waiting w) ∧ Moved S k V (k.dropEnd d) V' := by
  rcases hr : d.ref with _ | ⟨x, r⟩
  · rw [dropEnd_of_ref_none hr]
    exact ⟨∅, V, fun p hp => hp.elim, (Woke.refl h).toMoved⟩
  · rw [dropEnd_of_ref hr]
    exact h.moved_close (hl hr)

theorem Base.moved_dup (h : Base k V) (d : FileDescriptor) : Moved ∅ k V (k.dupEnd d) V := by
  rcases hr : d.ref with _ | ⟨x, r⟩
  · rw [dupEnd_of_ref_none hr]
    exact (Woke.refl h).toMoved
  · rw [dupEnd_of_ref hr]
    exact h.moved_setPipe (by cases r <;> rfl) (by cases r <;> rfl)

theorem dropEnd_slot (d : FileDescriptor) (s : Slot) : (k.dropEnd d).slot s = k.slot s := by
  rcases hr : d.ref with _ | ⟨x, r⟩
  · rw [dropEnd_of_ref_none hr]
  · rw [dropEnd_of_ref hr]
    refine (rest_fd (pipeCloseEnd_rest k x r) s.1 s.2).trans ?_
    split <;> rfl

end Moved

/-- The current process has been served: some waiters are woken, and no descriptors
change but its own. -/
structure Served (k : Kernel) (V : View) (k' : Kernel) (V' : View) : Prop where
  ok : KernelOk k' V'
  moved : ∃ S, Moved S k V k' V'
  others : ∀ p, p ≠ k.current → ∀ i, k'.fd p i = k.fd p i

section Served

variable {k k' k'' : Kernel} {V V' V'' : View}

theorem Served.refl (h : KernelOk k V) : Served k V k V :=
  ⟨h, ⟨∅, (Woke.refl h.base).toMoved⟩, fun _ _ _ => rfl⟩

theorem Served.trans (h : Served k V k' V') (h' : Served k' V' k'' V'') : Served k V k'' V'' := by
  obtain ⟨S, hS⟩ := h.moved
  obtain ⟨T, hT⟩ := h'.moved
  refine ⟨h'.ok, ⟨S ∪ T, hS.trans hT⟩, fun p hp i => ?_⟩
  rw [h'.others p (by rwa [hS.current]), h.others p hp]

theorem KernelOk.mem_slots (h : KernelOk k V) (i : Fin maxFds) : (k.current, i) ∈ V.slots :=
  View.mem_slots.mpr h.settled.current_mem

theorem KernelOk.served {S : Set Nat} (h : KernelOk k V) (hy : k.yielding = false)
    (hS : ∀ p ∈ S, ∃ w, p ∈ V.waiting w) (hm : Moved S k V k' V')
    (hfd : ∀ p, p ≠ k.current → ∀ i, k'.fd p i = k.fd p i) (he : Ends k' V.slots) :
    Served k V k' V' :=
  ⟨h.moved hm hy (fun hc => h.current_free hy (.inr (hS _ hc))) hfd he, ⟨S, hm⟩, hfd⟩

theorem setFd_fd_ne {p q : Nat} {i j : Fin maxFds} {d : FileDescriptor} (h : q ≠ p) :
    (k.setFd p i d).fd q j = k.fd q j := by
  unfold fd setFd
  rw [modify_ne h]

/-- One turn of the loop of `process_release_fds`, and the whole of `SYS_close`. -/
theorem KernelOk.releaseFd (h : KernelOk k V) (hy : k.yielding = false) (i : Fin maxFds) :
    ∃ V', Served k V (releaseFd k.current k i) V' := by
  have hs := h.mem_slots i
  obtain ⟨S, V₁, hS, h1⟩ := h.base.moved_drop (d := k.slot (k.current, i))
    fun hr => h.ends.live _ hs hr
  have h2 := h1.trans (h1.base.moved_setFd k.current i
    { (k.dropEnd (k.slot (k.current, i))).fd k.current i with
      type := .none, node := none, pipe := none })
  refine ⟨V₁, h.served hy (by rwa [Set.union_empty]) h2 (fun p hp j => ?_) ?_⟩
  · exact (setFd_fd_ne hp).trans (dropEnd_slot _ (p, j))
  · have he := (h.ends.drop hs).setFd (s := (k.current, i))
      (d := { (k.dropEnd (k.slot (k.current, i))).fd k.current i with
        type := .none, node := none, pipe := none }) (notMem_erase _ _)
    rw [← insert_erase hs]
    refine he.insert_none ?_ ?_
    · rw [setFd_slot_same (s := (k.current, i))]
      exact ok_of_none rfl rfl
    · unfold slotRef
      rw [setFd_slot_same (s := (k.current, i))]
      rfl

theorem releaseFd_fd (p : Nat) (i j : Fin maxFds) :
    ((Kernel.releaseFd p k i).fd p j).type = if j = i then .none else (k.fd p j).type := by
  have hd : (k.dropEnd (k.fd p i)).fd p j = k.fd p j := dropEnd_slot _ (p, j)
  unfold Kernel.releaseFd clearFd
  split
  next h =>
    subst h
    exact congrArg FileDescriptor.type (setFd_slot_same (s := (p, j)))
  next h =>
    have hne : ((p, j) : Slot) ≠ (p, i) := fun e => h (congrArg Prod.snd e)
    exact (congrArg FileDescriptor.type (setFd_slot_ne hne)).trans (congrArg _ hd)

/-- The loop of `process_release_fds`. -/
theorem KernelOk.releaseLoop (h : KernelOk k V) (hy : k.yielding = false)
    (L : List (Fin maxFds)) :
    ∃ V', Served k V (L.foldl (Kernel.releaseFd k.current) k) V' ∧
      ∀ i, i ∈ L ∨ (k.fd k.current i).type = .none →
        ((L.foldl (Kernel.releaseFd k.current) k).fd k.current i).type = .none := by
  induction L generalizing k V with
  | nil => exact ⟨V, .refl h, fun i hi => hi.resolve_left List.not_mem_nil⟩
  | cons i L ih =>
    obtain ⟨V₁, h1⟩ := h.releaseFd hy i
    obtain ⟨S, hS⟩ := h1.moved
    obtain ⟨V₂, h2, hnone⟩ := ih h1.ok (hS.yielding.trans hy)
    rw [hS.current] at h2 hnone
    refine ⟨V₂, h1.trans h2, fun j hj => hnone j ?_⟩
    rw [releaseFd_fd]
    by_cases hji : j = i
    · exact .inr (if_pos hji)
    · rw [if_neg hji]
      exact hj.imp_left fun hm => (List.mem_cons.mp hm).resolve_left hji

theorem KernelOk.sysClose (h : KernelOk k V) (hy : k.yielding = false) (rdi : Nat) :
    ∃ V', Served k V (k.sysClose rdi).1 V' := by
  unfold Kernel.sysClose
  split
  · exact h.releaseFd hy _
  · exact ⟨V, .refl h⟩

/-! ## Free slots -/

theorem freeSlot_spec {start : Nat} {i : Fin maxFds} (h : k.freeSlot start = some i) :
    start ≤ i ∧ (k.fd k.current i).type = .none := by
  have := List.find?_some h
  simpa using this

/-- A slot of the current process that holds no end is overwritten with a descriptor
that is counted afterwards. -/
theorem KernelOk.served_store {S : Set Nat} {s : Slot} {d : FileDescriptor} (h : KernelOk k V)
    (hy : k.yielding = false) (hs : s.1 = k.current) (hS : ∀ p ∈ S, ∃ w, p ∈ V.waiting w)
    (hm : Moved S k V k' V') (hfd : ∀ p, p ≠ k.current → ∀ i, k'.fd p i = k.fd p i)
    (he : Ends k' (V.slots.erase s)) (hok : d.Ok)
    (hl : ∀ {x r}, d.ref = some (x, r) → alive k'.log (.pipe x) = true) :
    Served k V ((k'.setFd s.1 s.2 d).dupEnd d) V' := by
  have h1 := hm.base.moved_setFd s.1 s.2 d
  have h2 := (hm.trans h1).trans (h1.base.moved_dup d)
  have hmem : s ∈ V.slots := View.mem_slots.mpr (hs ▸ h.settled.current_mem)
  refine h.served hy (by rwa [Set.union_empty, Set.union_empty]) h2 (fun p hp i => ?_) ?_
  · refine (dupEnd_slot d (p, i)).trans ?_
    rw [hs]
    exact (setFd_fd_ne hp).trans (hfd p hp i)
  · have he' := he.setFd (s := s) (d := d) (notMem_erase _ _)
    have hsame := setFd_slot_same (k := k') (s := s) (d := d)
    have := he'.dup (s := s) (notMem_erase _ _) (by rwa [hsame])
      (fun {x r} hr => hl (r := r) (by rwa [slotRef, hsame] at hr))
    rwa [hsame, insert_erase hmem] at this

theorem KernelOk.ends_erase (h : KernelOk k V) {i : Fin maxFds}
    (hi : (k.fd k.current i).type = .none) : Ends k (V.slots.erase (k.current, i)) :=
  h.ends.erase_none (ref_none_of_type (.inl hi))

theorem KernelOk.sysOpen (h : KernelOk k V) (hy : k.yielding = false) (file : Option Nat)
    (flags : Nat) : ∃ V', Served k V (k.sysOpen file flags).1 V' := by
  unfold Kernel.sysOpen
  cases file with
  | none => exact ⟨V, .refl h⟩
  | some node =>
    cases hi : k.freeSlot 3 with
    | none => exact ⟨V, .refl h⟩
    | some i =>
      have hvfs : ({ k.fd k.current i with
        type := .vfs, node := some node, offset := 0, flags := flags } :
          FileDescriptor).ref = none := ref_none_of_type (.inr rfl)
      have := h.served_store (s := (k.current, i)) hy rfl (fun p hp => hp.elim)
        (Woke.refl h.base).toMoved (fun _ _ _ => rfl) (h.ends_erase (freeSlot_spec hi).2)
        (ok_of_vfs rfl) (fun hr => by rw [hvfs] at hr; cases hr)
      rw [dupEnd_of_ref_none hvfs] at this
      exact ⟨V, this⟩

theorem KernelOk.sysDup (h : KernelOk k V) (hy : k.yielding = false) (oldfd : Nat) :
    ∃ V', Served k V (k.sysDup oldfd).1 V' := by
  unfold Kernel.sysDup
  split
  next hlt =>
    dsimp only
    split
    · exact ⟨V, .refl h⟩
    · split
      · exact ⟨V, .refl h⟩
      next i hi =>
        have hold := h.mem_slots ⟨oldfd, hlt⟩
        exact ⟨V, h.served_store (s := (k.current, i)) hy rfl (fun p hp => hp.elim)
          (Woke.refl h.base).toMoved (fun _ _ _ => rfl) (h.ends_erase (freeSlot_spec hi).2)
          (h.ends.ok _ hold) (h.ends.live _ hold)⟩
  · exact ⟨V, .refl h⟩

theorem KernelOk.sysDup2 (h : KernelOk k V) (hy : k.yielding = false) (oldfd newfd : Nat) :
    ∃ V', Served k V (k.sysDup2 oldfd newfd).1 V' := by
  unfold Kernel.sysDup2
  split
  next hlt =>
    split
    · exact ⟨V, .refl h⟩
    split
    · exact ⟨V, .refl h⟩
    next hne =>
      dsimp only
      have hnew := h.mem_slots ⟨newfd, hlt.2⟩
      have hold : ((k.current, ⟨oldfd, hlt.1⟩) : Slot) ∈
          V.slots.erase (k.current, ⟨newfd, hlt.2⟩) := by
        refine mem_erase.mpr ⟨fun e => hne ?_, h.mem_slots _⟩
        exact (congrArg (fun s : Slot => (s.2 : Nat)) e).symm
      obtain ⟨S, V₁, hS, h1⟩ := h.base.moved_drop (d := k.slot (k.current, ⟨newfd, hlt.2⟩))
        fun hr => h.ends.live _ hnew hr
      have he := h.ends.drop hnew
      have := h.served_store (s := (k.current, ⟨newfd, hlt.2⟩)) hy rfl hS h1
        (fun p _ i => dropEnd_slot _ (p, i)) he (he.ok _ hold) (he.live _ hold)
      have hcur : (k.dropEnd (k.fd k.current ⟨newfd, hlt.2⟩)).current = k.current := h1.current
      rw [hcur]
      exact ⟨V₁, this⟩
  · exact ⟨V, .refl h⟩

end Served

/-! ## `SYS_pipe` -/

section Pipe

variable {k : Kernel} {V : View} {x : Nat} {a b : Fin maxFds}

theorem live_alloc {w : WaitId} {log : List Call} (h : w.Live (.alloc (.pipe x) :: log)) :
    w.Live log ∨ ∃ r, w = .ofEnd x r := by
  cases w with
  | kbd | mouse => exact .inl trivial
  | pipeRead y =>
    rcases alive_alloc_pipe.mp h with rfl | h
    · exact .inr ⟨true, rfl⟩
    · exact .inl h
  | pipeWrite y =>
    rcases alive_alloc_pipe.mp h with rfl | h
    · exact .inr ⟨false, rfl⟩
    · exact .inl h

theorem setPipe_waitq {w : WaitId} {q : Pipe WaitQueue} (h : ∀ r, w ≠ .ofEnd x r) :
    (k.setPipe x q).waitq w = k.waitq w := by
  cases w with
  | kbd | mouse => rfl
  | pipeRead y => exact congrArg Pipe.readWaiters (setPipe_ne fun e => h true (e ▸ rfl))
  | pipeWrite y => exact congrArg Pipe.writeWaiters (setPipe_ne fun e => h false (e ▸ rfl))

/-- `pipe_create` of a pipe that is not in use. -/
theorem Base.moved_create (h : Base k V) (hx : alive k.log (.pipe x) = false) :
    Moved ∅ k V ((k.emit (.alloc (.pipe x))).setPipe x (pipeCreate .empty)) V := by
  have hnone : ∀ r, V.waiting (.ofEnd x r) = [] := fun r => by
    refine h.links.wait_none _ fun hl => ?_
    have : alive k.log (.pipe x) = true := by cases r <;> exact hl
    rw [hx] at this
    cases this
  refine Base.stay (h.congr (h.ringOk.congr rfl) rfl rfl (fun w hl => ?_) (fun w hl => ?_)
    (fun _ _ => rfl) fun _ _ _ => rfl) rfl rfl rfl (fun _ => rfl) fun _ => rfl
  · by_cases hw : ∃ r, w = .ofEnd x r
    · obtain ⟨r, rfl⟩ := hw
      refine .inr ⟨?_, hnone r⟩
      cases r
      · exact congrArg Pipe.writeWaiters setPipe_same
      · exact congrArg Pipe.readWaiters setPipe_same
    · refine .inl ⟨(live_alloc hl).resolve_right hw, ?_⟩
      refine (setPipe_waitq fun r e => hw ⟨r, e⟩).trans ?_
      cases w <;> rfl
  · refine h.links.wait_none w fun hl' => hl ?_
    cases w with
    | kbd | mouse => trivial
    | pipeRead y | pipeWrite y => exact alive_alloc_pipe.mpr (.inr hl')

theorem setFd_slot (p : Nat) (i : Fin maxFds) (d : FileDescriptor) (s : Slot) :
    (k.setFd p i d).slot s = if s = (p, i) then d else k.slot s := by
  split
  next h => subst h; exact setFd_slot_same (s := (p, i))
  next h => exact setFd_slot_ne h

theorem openEnd_slot (t : FdType) (s : Slot) : (k.openEnd a t x).slot s =
    if s = (k.current, a) then { k.slot s with type := t, pipe := some x } else k.slot s := by
  unfold openEnd
  rw [setFd_slot]
  split
  next h => subst h; rfl
  next h => rfl

@[simp] theorem openEnd_current (t : FdType) : (k.openEnd a t x).current = k.current := rfl

@[simp] theorem setPipe_current (q : Pipe WaitQueue) : (k.setPipe x q).current = k.current := rfl

@[simp] theorem emit_current (c : Call) : (k.emit c).current = k.current := rfl

theorem dropSlot_slot (s : Slot) : (k.dropSlot a).slot s =
    if s = (k.current, a) then { k.slot s with type := .none, pipe := none } else k.slot s := by
  unfold dropSlot
  rw [setFd_slot]
  split
  next h => subst h; rfl
  next h => rfl

theorem Base.moved_openEnd (h : Base k V) (a : Fin maxFds) (t : FdType) (x : Nat) :
    Moved ∅ k V (k.openEnd a t x) V := h.moved_setFd k.current a _

theorem Base.moved_dropSlot (h : Base k V) (a : Fin maxFds) : Moved ∅ k V (k.dropSlot a) V :=
  h.moved_setFd k.current a _

/-- The kernel after `SYS_pipe` has made the pipe and stored its two ends. -/
def withPipe (k : Kernel) (a b : Fin maxFds) (x : Nat) : Kernel :=
  (((k.emit (.alloc (.pipe x))).setPipe x (pipeCreate .empty)).openEnd a .pipeRead x).openEnd b
    .pipeWrite x

theorem withPipe_slot (hab : a ≠ b) (s : Slot) : (k.withPipe a b x).slot s =
    if s = (k.current, a) then { k.slot s with type := .pipeRead, pipe := some x }
    else if s = (k.current, b) then { k.slot s with type := .pipeWrite, pipe := some x }
    else k.slot s := by
  have hne : ((k.current, a) : Slot) ≠ (k.current, b) := fun e => hab (congrArg Prod.snd e)
  have hk : ((k.emit (.alloc (.pipe x))).setPipe x (pipeCreate .empty)).slot = k.slot := rfl
  unfold withPipe
  rw [openEnd_slot, openEnd_slot, hk, openEnd_current, setPipe_current, emit_current]
  by_cases h1 : s = (k.current, a)
  · subst h1
    simp [hne]
  · simp [h1]

theorem KernelOk.withPipe (h : KernelOk k V) (hy : k.yielding = false) (hab : a ≠ b)
    (ha : (k.fd k.current a).type = .none) (hb : (k.fd k.current b).type = .none)
    (hx : alive k.log (.pipe x) = false) : Served k V (k.withPipe a b x) V := by
  have h1 := h.base.moved_create hx
  have h2 := h1.trans (h1.base.moved_openEnd a .pipeRead x)
  have h3 := h2.trans (h2.base.moved_openEnd b .pipeWrite x)
  have hne : ((k.current, b) : Slot) ≠ (k.current, a) := fun e => hab (congrArg Prod.snd e).symm
  have hslota := withPipe_slot (k := k) (x := x) hab (k.current, a)
  have hslotb := withPipe_slot (k := k) (x := x) hab (k.current, b)
  rw [if_pos rfl] at hslota
  rw [if_neg hne, if_pos rfl] at hslotb
  have hbm : ((k.current, b) : Slot) ∈ V.slots.erase (k.current, a) :=
    mem_erase.mpr ⟨hne, h.mem_slots b⟩
  refine h.served hy (by rintro p ((hp | hp) | hp) <;> exact hp.elim) h3 (fun p hp i => ?_) ?_
  · have := withPipe_slot (k := k) (x := x) hab (p, i)
    rwa [if_neg fun e => hp (congrArg Prod.fst e), if_neg fun e => hp (congrArg Prod.fst e)] at this
  · have he := (h.ends_erase ha).erase_none (s := (k.current, b)) (ref_none_of_type (.inl hb))
    rw [← insert_erase (h.mem_slots a), ← insert_erase hbm]
    refine he.create (fun hm => notMem_erase _ _ (mem_of_mem_erase hm))
      (notMem_erase _ _) hx rfl setPipe_same (fun y hy => setPipe_ne hy) (fun s hm => ?_)
      ?_ ?_ ?_ ?_
    · obtain ⟨hsb, hm⟩ := mem_erase.mp hm
      rw [withPipe_slot hab, if_neg (mem_erase.mp hm).1, if_neg hsb]
    · rw [hslota]
      exact ok_of_pipe (.inl rfl) (by simp)
    · rw [hslotb]
      exact ok_of_pipe (.inr rfl) (by simp)
    · rw [slotRef, hslota]
      rfl
    · rw [slotRef, hslotb]
      rfl

/-- `SYS_pipe` takes both ends back. -/
theorem KernelOk.dropPipe (h : KernelOk k V) (hy : k.yielding = false) (hab : a ≠ b)
    (ha : k.slotRef (k.current, a) = some (x, true))
    (hb : k.slotRef (k.current, b) = some (x, false)) :
    ∃ V', Served k V ((((k.pipeCloseEnd x true).pipeCloseEnd x false).dropSlot a).dropSlot b) V' ∧
      ∀ s, ((((k.pipeCloseEnd x true).pipeCloseEnd x false).dropSlot a).dropSlot b).slot s =
        if s = (k.current, a) ∨ s = (k.current, b) then
          { k.slot s with type := .none, pipe := none }
        else k.slot s := by
  have hne : ((k.current, b) : Slot) ≠ (k.current, a) := fun e => hab (congrArg Prod.snd e).symm
  have hbm : ((k.current, b) : Slot) ∈ V.slots.erase (k.current, a) :=
    mem_erase.mpr ⟨hne, h.mem_slots b⟩
  -- the two closes are those of the two slots
  have he1 := h.ends.drop (h.mem_slots a)
  obtain ⟨S, V₁, hS, h1⟩ := h.base.moved_drop (d := k.slot (k.current, a))
    fun hr => h.ends.live _ (h.mem_slots a) hr
  rw [dropEnd_of_ref ha] at he1 h1
  set k₁ := k.pipeCloseEnd x true with hk₁
  have hs1 : k₁.slot = k.slot := funext fun s => by
    rw [hk₁, ← dropEnd_of_ref ha, dropEnd_slot]
  have hb' : k₁.slotRef (k.current, b) = some (x, false) := by rw [slotRef, hs1]; exact hb
  have he2 := he1.drop hbm
  obtain ⟨T, V₂, hT, h2⟩ := h1.base.moved_drop (d := k₁.slot (k.current, b))
    fun hr => he1.live _ hbm hr
  rw [dropEnd_of_ref hb'] at he2 h2
  set k₂ := k₁.pipeCloseEnd x false with hk₂
  have hs2 : k₂.slot = k.slot := funext fun s => by
    rw [hk₂, ← dropEnd_of_ref hb', dropEnd_slot, hs1]
  have h12 := h1.trans h2
  have h3 := h12.trans (h12.base.moved_dropSlot a)
  have h4 := h3.trans (h3.base.moved_dropSlot b)
  have hc3 : (k₂.dropSlot a).current = k.current := h3.current
  have hslot : ∀ s, ((k₂.dropSlot a).dropSlot b).slot s =
      if s = (k.current, a) ∨ s = (k.current, b) then
        { k.slot s with type := .none, pipe := none } else k.slot s := fun s => by
    rw [dropSlot_slot, dropSlot_slot, hs2, hc3, h12.current]
    by_cases h2 : s = (k.current, b)
    · subst h2
      simp [Ne.symm hab]
    · simp [h2]
  refine ⟨V₂, h.served hy ?_ h4 (fun p hp i => ?_) ?_, hslot⟩
  · rintro p (((hp | hp) | hp) | hp)
    · exact hS p hp
    · obtain ⟨w, hm⟩ := hT p hp
      exact ⟨w, ((h1.waiting w p).mp hm).1⟩
    · exact hp.elim
    · exact hp.elim
  · have := hslot (p, i)
    rwa [if_neg] at this
    rintro (e | e) <;> exact hp (congrArg Prod.fst e)
  · have he3 := (he2.setFd (s := (k₂.current, a)) (d := { k₂.fd k₂.current a with
      type := .none, pipe := none }) (by
        rw [h12.current]
        exact fun hm => notMem_erase _ _ (mem_of_mem_erase hm)))
    have he4 := he3.setFd (s := ((k₂.dropSlot a).current, b)) (d := { (k₂.dropSlot a).fd
      (k₂.dropSlot a).current b with type := .none, pipe := none }) (by
        rw [hc3]
        exact notMem_erase _ _)
    have hnone : ∀ s, s = (k.current, a) ∨ s = (k.current, b) →
        (((k₂.dropSlot a).dropSlot b).slot s).Ok ∧ ((k₂.dropSlot a).dropSlot b).slotRef s = none :=
      fun s hs => by
        rw [slotRef, hslot, if_pos hs]
        exact ⟨ok_of_none rfl rfl, rfl⟩
    rw [← insert_erase (h.mem_slots a), ← insert_erase hbm]
    exact (he4.insert_none (hnone _ (.inr rfl)).1 (hnone _ (.inr rfl)).2).insert_none
      (hnone _ (.inl rfl)).1 (hnone _ (.inl rfl)).2

/-- `SYS_pipe`.  If it fails, the descriptors are as they were. -/
theorem KernelOk.sysPipe (h : KernelOk k V) (hy : k.yielding = false) {pipe : Option Nat}
    (hx : k.Fresh .pipe pipe) (copied : Bool) :
    ∃ V', Served k V (k.sysPipe pipe copied).1 V' ∧
      ((k.sysPipe pipe copied).2 ≠ 0 → ∀ s ∈ V.slots, (k.sysPipe pipe copied).1.slot s = k.slot s)
      := by
  unfold Kernel.sysPipe
  cases ha : k.freeSlot 3 with
  | none => exact ⟨V, .refl h, fun _ _ _ => rfl⟩
  | some a =>
    dsimp only
    cases hb : k.freeSlot (a + 1) with
    | none => exact ⟨V, .refl h, fun _ _ _ => rfl⟩
    | some b =>
      cases pipe with
      | none => exact ⟨V, .refl h, fun _ _ _ => rfl⟩
      | some x =>
        obtain ⟨-, ha⟩ := freeSlot_spec ha
        obtain ⟨hlt, hb⟩ := freeSlot_spec hb
        have hab : a ≠ b := fun e => by rw [e] at hlt; omega
        have h1 := h.withPipe hy hab ha hb (hx x rfl)
        dsimp only
        split
        · exact ⟨V, h1, fun hr => absurd rfl hr⟩
        · obtain ⟨S, hS⟩ := h1.moved
          have hslot := withPipe_slot (k := k) (x := x) hab
          have hne : ((k.current, b) : Slot) ≠ (k.current, a) :=
            fun e => hab (congrArg Prod.snd e).symm
          have hc : (k.withPipe a b x).current = k.current := hS.current
          obtain ⟨V₂, h2, hdrop⟩ := h1.ok.dropPipe (a := a) (b := b) (x := x)
            (hS.yielding.trans hy) hab (by rw [slotRef, hc, hslot, if_pos rfl]; rfl)
            (by rw [slotRef, hc, hslot, if_neg hne, if_pos rfl]; rfl)
          refine ⟨V₂, h1.trans h2, fun _ s hm => ?_⟩
          refine (hdrop s).trans ?_
          have hblank := (h.ends.ok s hm).blank
          rw [hc]
          split
          next hs =>
            have htype : (k.slot s).type = .none := by
              rcases hs with rfl | rfl
              · exact ha
              · exact hb
            have hpipe := hblank htype
            rw [hslot]
            rcases hs with hs | hs
            · rw [if_pos hs]
              cases hd : k.slot s
              simp_all
            · rw [if_neg (hs ▸ hne), if_pos hs]
              cases hd : k.slot s
              simp_all
          next hs =>
            push Not at hs
            rw [hslot, if_neg hs.1, if_neg hs.2]

end Pipe

end Kernel

end Aeryk
