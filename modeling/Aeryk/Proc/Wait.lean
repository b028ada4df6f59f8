import Aeryk.Proc.Parents

/-!
# What `wait_reap_child` answers

`SYS_wait` calls `wait_reap_child` again for as long as it answers `0`, so this answer should mean
that a child it asks for is still alive.  The search sets `has_children` at every child of the
caller, also at one with another pid.  In every other respect the answer is right: the first dead
child of the ring that was asked for is reported, taken out and freed.
-/

namespace Aeryk

open Lib

namespace Kernel

/-- What `wait_reap_child` returns, as an `int`. -/
def WaitResult.value : WaitResult → Int
  | .noChild => -1
  | .none => 0
  | .reaped pid _ => (pid : Int).bmod (2 ^ 32)

section

variable {k : Kernel} {parent : Nat} {pid : Int} {l : List Nat} {p : Nat}

/-- The process is a child that the filter lets through. -/
def Wanted (k : Kernel) (parent : Nat) (pid : Int) (p : Nat) : Prop :=
  (k.procs p).parent = some parent ∧ (pid ≤ 0 ∨ pid = (k.procs p).pid)

instance : Decidable (k.Wanted parent pid p) := inferInstanceAs (Decidable (_ ∧ _))

/-- The first dead process in the list that is wanted. -/
def firstDead (k : Kernel) (parent : Nat) (pid : Int) (l : List Nat) : Option Nat :=
  l.find? fun p => k.Wanted parent pid p ∧ k.stateOf p = .dead

/-- `wait_reap_child` tells the truth about the processes of the ring `l`. -/
structure WaitOk (k : Kernel) (l : List Nat) (parent : Nat) (pid : Int) : Prop where
  positive : 0 < (k.waitReapChild parent pid).2.value ↔
    ∃ p ∈ l, k.Wanted parent pid p ∧ k.stateOf p = .dead
  reaped : ∀ p, k.firstDead parent pid l = some p →
    (k.waitReapChild parent pid).2 = .reaped (k.procs p).pid (k.procs p).exitCode ∧
    (k.waitReapChild parent pid).2.value = (k.procs p).pid ∧
    Ring (fun q => ((k.waitReapChild parent pid).1.procs q).next)
      (fun q => ((k.waitReapChild parent pid).1.procs q).prev)
      (k.waitReapChild parent pid).1.processQueue (l.erase p) ∧
    alive (k.waitReapChild parent pid).1.log (.process p) = false
  zero : (∀ p ∈ l, k.Wanted parent pid p → k.stateOf p ≠ .dead) →
    (k.waitReapChild parent pid).2.value = 0 → ∃ p ∈ l, k.Wanted parent pid p
  none : (∀ p ∈ l, ¬k.Wanted parent pid p) →
    (k.waitReapChild parent pid).2.value = -1

/-- The search remembers every child it walks past. -/
theorem findChild_snd (n cand : Nat) (b : Bool)
    (h : (k.findChild parent pid n cand b).1 = none) :
    (k.findChild parent pid n cand b).2 =
      (b || (walk (fun p => (k.procs p).next) n cand).any fun p =>
        (k.procs p).parent = some parent) := by
  induction n generalizing cand b with
  | zero => simp [findChild, walk]
  | succ n ih =>
    unfold findChild at h ⊢
    unfold walk
    dsimp only at h ⊢
    rw [List.any_cons]
    split at h
    next hpar =>
      rw [if_pos hpar, ih _ _ h, decide_eq_false hpar, Bool.false_or]
    next hpar =>
      rw [if_neg hpar]
      split at h
      · cases h
      next hdead =>
        rw [if_neg hdead, ih _ _ h, decide_eq_true (not_not.mp hpar)]
        simp

/-- `wait_reap_child` reaps the first dead child that is wanted, and without one it answers by
whether there is a child at all. -/
theorem waitReapChild_ring
    (hr : Ring (fun q => (k.procs q).next) (fun q => (k.procs q).prev) k.processQueue l)
    (hlen : l.length ≤ k.nextPid) (parent : Nat) (pid : Int) :
    k.waitReapChild parent pid =
      match k.firstDead parent pid l with
      | some p => (k.reap p, .reaped (k.procs p).pid (k.procs p).exitCode)
      | none => (k, if ∃ p ∈ l, (k.procs p).parent = some parent then .none else .noChild) := by
  unfold Kernel.waitReapChild
  cases hq : k.processQueue with
  | none =>
    have hnil : l = [] := List.head?_eq_none_iff.mp (hr.head_eq ▸ hq)
    subst hnil
    simp [firstDead]
  | some node =>
    rw [hq] at hr
    have hcount : k.ringCount node = l.length := hr.lapCount_eq hlen
    have hwalk : walk (fun q => (k.procs q).next) (k.ringCount node) node = l := by
      rw [hcount]
      exact hr.walk_eq
    have hfst : (k.findChild parent pid (k.ringCount node) node false).1 =
        k.firstDead parent pid l := by
      rw [findChild_fst, hwalk]
      unfold firstDead Wanted
      simp only [and_assoc, and_comm (a := k.stateOf _ = _)]
    have hsnd : (k.findChild parent pid (k.ringCount node) node false).1 = none →
        (k.findChild parent pid (k.ringCount node) node false).2 =
          (false || l.any fun p => (k.procs p).parent = some parent) := by
      intro hnone
      rw [findChild_snd _ _ _ hnone, hwalk]
    dsimp only
    generalize k.findChild parent pid (k.ringCount node) node false = r at hfst hsnd ⊢
    obtain ⟨found, b⟩ := r
    rw [← hfst]
    cases found with
    | some p => rfl
    | none =>
      have hb := hsnd rfl
      dsimp only at hb ⊢
      rw [hb]
      simp

/-- What the search found is a dead child that is wanted. -/
theorem firstDead_some (h : k.firstDead parent pid l = some p) :
    p ∈ l ∧ k.Wanted parent pid p ∧ k.stateOf p = .dead := by
  have hp := List.find?_some h
  exact ⟨List.mem_of_find?_eq_some h, of_decide_eq_true hp⟩

theorem firstDead_none (h : k.firstDead parent pid l = none) :
    ∀ p ∈ l, k.Wanted parent pid p → k.stateOf p ≠ .dead := by
  intro p hp hw hd
  exact List.find?_eq_none.mp h p hp (decide_eq_true ⟨hw, hd⟩)

theorem value_reaped {n : Nat} (code : Int) (hn : n < 2 ^ 31) :
    (WaitResult.reaped n code).value = n := by
  unfold WaitResult.value
  exact Int.bmod_eq_of_le (by omega) (by omega)

/-- Giving back the memory of a process leaves the links alone. -/
theorem destroyProcessVm_links (k : Kernel) (p : Nat) :
    (k.destroyProcessVm p).procs = k.procs ∧
      (k.destroyProcessVm p).processQueue = k.processQueue := by
  unfold destroyProcessVm
  dsimp only
  split
  · exact ⟨rfl, rfl⟩
  · split
    · exact ⟨rfl, rfl⟩
    · split
      · exact ⟨rfl, rfl⟩
      · exact ⟨rfl, rfl⟩

theorem reap_ring
    (hr : Ring (fun q => (k.procs q).next) (fun q => (k.procs q).prev) k.processQueue l)
    (hp : p ∈ l) :
    Ring (fun q => ((k.reap p).procs q).next) (fun q => ((k.reap p).procs q).prev)
      (k.reap p).processQueue (l.erase p) := by
  have hring := unlink_ring hr hp
  obtain ⟨hprocs, hqueue⟩ :=
    destroyProcessVm_links ((k.unlink p).emit (.free (.stack (k.procs p).kernelStack))) p
  have hprocs' : (k.reap p).procs = (k.unlink p).procs := hprocs
  have hqueue' : (k.reap p).processQueue = (k.unlink p).processQueue := hqueue
  rw [hprocs', hqueue']
  exact hring

/-- If a dead child is wanted, the answer is right. -/
theorem WaitOk.of_dead
    (hr : Ring (fun q => (k.procs q).next) (fun q => (k.procs q).prev) k.processQueue l)
    (hpid : 0 < (k.procs p).pid ∧ (k.procs p).pid < 2 ^ 31)
    (hf : k.firstDead parent pid l = some p)
    (heq : k.waitReapChild parent pid =
      (k.reap p, .reaped (k.procs p).pid (k.procs p).exitCode)) : k.WaitOk l parent pid := by
  obtain ⟨hp, hw, hd⟩ := firstDead_some hf
  have hvalue := value_reaped (k.procs p).exitCode hpid.2
  refine ⟨?_, fun q hq => ?_, fun hno _ => absurd hd (hno p hp hw), fun hno => absurd hw (hno p hp)⟩
  · rw [heq, hvalue]
    exact ⟨fun _ => ⟨p, hp, hw, hd⟩, fun _ => by exact_mod_cast hpid.1⟩
  · obtain rfl := Option.some.inj (hf.symm.trans hq)
    rw [heq]
    refine ⟨rfl, hvalue, reap_ring hr hp, ?_⟩
    simp [Kernel.reap, emit]

/-- Without one it is right exactly if a living child is wanted or there is no child. -/
theorem waitOk_of_none (hf : k.firstDead parent pid l = none)
    (heq : k.waitReapChild parent pid =
      (k, if ∃ p ∈ l, (k.procs p).parent = some parent then .none else .noChild)) :
    k.WaitOk l parent pid ↔
      (∃ p ∈ l, k.Wanted parent pid p) ∨ ∀ p ∈ l, (k.procs p).parent ≠ some parent := by
  have hdead := firstDead_none hf
  have hnone : ¬∃ p ∈ l, k.Wanted parent pid p ∧ k.stateOf p = .dead :=
    fun ⟨p, hp, hw, hd⟩ => hdead p hp hw hd
  by_cases hchild : ∃ p ∈ l, (k.procs p).parent = some parent
  · rw [if_pos hchild] at heq
    constructor
    · intro h
      have hzero : (k.waitReapChild parent pid).2.value = 0 := by rw [heq]; rfl
      exact .inl (h.zero hdead hzero)
    · rintro (hw | hno)
      · refine ⟨?_, fun q hq => ?_, fun _ _ => hw, fun hno => ?_⟩
        · rw [heq]
          exact ⟨fun h => absurd h (Int.lt_irrefl 0), fun h => absurd h hnone⟩
        · cases hf.symm.trans hq
        · obtain ⟨p, hp, hw⟩ := hw
          exact absurd hw (hno p hp)
      · obtain ⟨p, hp, hpar⟩ := hchild
        exact absurd hpar (hno p hp)
  · rw [if_neg hchild] at heq
    have hvalue : (k.waitReapChild parent pid).2.value = -1 := by rw [heq]; rfl
    have hno : ∀ p ∈ l, (k.procs p).parent ≠ some parent := fun p hp h => hchild ⟨p, hp, h⟩
    refine ⟨fun _ => .inr hno, fun _ => ⟨?_, fun q hq => ?_, fun _ h => ?_, fun _ => hvalue⟩⟩
    · rw [hvalue]
      exact ⟨fun h => absurd h (by decide), fun h => absurd h hnone⟩
    · cases hf.symm.trans hq
    · rw [hvalue] at h
      cases h

/-- On a ring with pids below `2 ^ 31`, `wait_reap_child` tells the truth exactly if it is asked
for any child, or for the pid of a child, or its caller has no child. -/
theorem wait_truthful_iff
    (hr : Ring (fun q => (k.procs q).next) (fun q => (k.procs q).prev) k.processQueue l)
    (hlen : l.length ≤ k.nextPid) (hpid : ∀ p ∈ l, (k.procs p).pid < 2 ^ 31)
    (hpos : ∀ p ∈ l, (k.procs p).parent ≠ none → 0 < (k.procs p).pid) :
    k.WaitOk l parent pid ↔
      pid ≤ 0 ∨ (∃ p ∈ l, (k.procs p).parent = some parent ∧ pid = (k.procs p).pid) ∨
        ∀ p ∈ l, (k.procs p).parent ≠ some parent := by
  have heq := waitReapChild_ring hr hlen parent pid
  cases hf : k.firstDead parent pid l with
  | some p =>
    rw [hf] at heq
    obtain ⟨hp, ⟨hpar, hfilter⟩, hd⟩ := firstDead_some hf
    have hok : k.WaitOk l parent pid :=
      .of_dead hr ⟨hpos p hp (by simp [hpar]), hpid p hp⟩ hf heq
    rcases hfilter with hany | hsame
    · exact ⟨fun _ => .inl hany, fun _ => hok⟩
    · exact ⟨fun _ => .inr (.inl ⟨p, hp, hpar, hsame⟩), fun _ => hok⟩
  | none =>
    rw [hf] at heq
    rw [waitOk_of_none hf heq]
    constructor
    · rintro (⟨p, hp, hpar, hany | hsame⟩ | hno)
      · exact .inl hany
      · exact .inr (.inl ⟨p, hp, hpar, hsame⟩)
      · exact .inr (.inr hno)
    · rintro (hany | ⟨p, hp, hpar, hsame⟩ | hno)
      · by_cases hchild : ∃ p ∈ l, (k.procs p).parent = some parent
        · obtain ⟨p, hp, hpar⟩ := hchild
          exact .inl ⟨p, hp, hpar, .inl hany⟩
        · exact .inr fun p hp hpar => hchild ⟨p, hp, hpar⟩
      · exact .inl ⟨p, hp, hpar, .inr hsame⟩
      · exact .inr hno

end

/-- Process 1 has a child with pid 2, which lives. -/
def oneChild : List Event :=
  [.create (.loaded 1 0 0 0) (some 1) (some 1), .schedule,
    .clone 0 0 ⟨none, some 2, some 2, some 2⟩]

theorem oneChild_ring :
    Ring (fun q => ((oneChild.foldl step (initScheduler .blank)).procs q).next)
      (fun q => ((oneChild.foldl step (initScheduler .blank)).procs q).prev)
      (oneChild.foldl step (initScheduler .blank)).processQueue [0, 1, 2] where
  head_eq := by decide +kernel
  path h hh := by
    have hzero : (oneChild.foldl step (initScheduler .blank)).processQueue = some 0 := by
      decide +kernel
    obtain rfl := Option.some.inj (hzero.symm.trans hh)
    rw [path_cons, path_cons, path_cons, path_nil]
    decide +kernel
  inv := by decide +kernel
  nodup := by decide

theorem wait_truthful_oneChild :
    (oneChild.foldl step (initScheduler .blank)).WaitOk [0, 1, 2] 1 2 :=
  (wait_truthful_iff oneChild_ring (by decide +kernel) (by decide +kernel)
    (by decide +kernel)).mpr (.inr (.inl (by decide +kernel)))

/-- The process waits for the pid 99, and is told to wait. -/
theorem wait_for_no_child :
    (initScheduler .blank).CanRun (fun _ _ => True) oneChild ∧
      ((oneChild.foldl step (initScheduler .blank)).waitReapChild 1 99).2 = .none ∧
      (∀ p ∈ [0, 1, 2], ¬(oneChild.foldl step (initScheduler .blank)).Wanted 1 99 p) ∧
      ¬(oneChild.foldl step (initScheduler .blank)).WaitOk [0, 1, 2] 1 99 := by
  have hnone : ((oneChild.foldl step (initScheduler .blank)).waitReapChild 1 99).2 = .none := by
    decide +kernel
  have hno : ∀ p ∈ [0, 1, 2], ¬(oneChild.foldl step (initScheduler .blank)).Wanted 1 99 p := by
    decide +kernel
  refine ⟨by decide +kernel, hnone, hno, fun h => ?_⟩
  have hvalue := h.none hno
  rw [hnone] at hvalue
  cases hvalue

end Kernel

end Aeryk
