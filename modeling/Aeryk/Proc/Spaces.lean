import Aeryk.Lib.Shared
import Aeryk.Proc.Steps

/-!
# Address spaces

Processes own page tables.  A process that has called `clone` with `CLONE_VM`, and the threads it
started that way, own one together and count themselves in `vm_refcount`.  `Spaces k D` says that
the processes of `D` agree with their counters, that their tables have not been destroyed, and none
twice.

Every operation keeps this, with one exception.  `exec_process` destroys the old table without a
look at the counter, and is sound only for a process that is alone with its table.
-/

namespace Aeryk

open Finset Function Lib Kernel

def Process.space (x : Process) : Nat × Option Nat := (x.cr3, x.vmRefcount)

/-- The object is neither a page table nor a counter. -/
def Obj.isOther : Obj → Bool
  | .table _ | .counter _ => false
  | _ => true

namespace Kernel

/-- The processes of `D` own their tables and agree with their counters. -/
structure Spaces (k : Kernel) (D : Finset Nat) : Prop where
  shares : Shares D (fun p => (k.procs p).cr3) (fun p => (k.procs p).vmRefcount) k.counters
  idle_mem : k.idle ∈ D
  idle : (k.procs k.idle).space = (k.kernelCr3, none)
  table : ∀ p ∈ D, p ≠ k.idle → alive k.log (.table (k.procs p).cr3) = true
  counter : ∀ p ∈ D, ∀ c, (k.procs p).vmRefcount = some c → alive k.log (.counter c) = true
  kernel : alive k.log (.table k.kernelCr3) = false
  frees : ∀ t, FreesOk (.table t) k.log

section

variable {k k' : Kernel} {D : Finset Nat} {p t a c : Nat} {x : Process}

theorem Spaces.congr (h : Spaces k D) (hp : ∀ p ∈ D, (k'.procs p).space = (k.procs p).space)
    (hc : k'.counters = k.counters) (hk : k'.kernelCr3 = k.kernelCr3) (hi : k'.idle = k.idle)
    (hl : ∀ o : Obj, o.isOther = false → alive k'.log o = alive k.log o)
    (hf : ∀ t, FreesOk (.table t) k.log → FreesOk (.table t) k'.log) : Spaces k' D where
  shares := h.shares.congr (fun p hm => congrArg Prod.fst (hp p hm))
    (fun p hm => congrArg Prod.snd (hp p hm)) fun _ _ c _ => by rw [hc]
  idle_mem := hi ▸ h.idle_mem
  idle := by rw [hi, hp _ h.idle_mem, hk, h.idle]
  table p hm hne := by
    have hcr : (k'.procs p).cr3 = (k.procs p).cr3 := congrArg Prod.fst (hp p hm)
    rw [hl _ rfl, hcr]
    exact h.table p hm (hi ▸ hne)
  counter p hm c e := by
    have hcr : (k'.procs p).vmRefcount = (k.procs p).vmRefcount := congrArg Prod.snd (hp p hm)
    rw [hl _ rfl]
    exact h.counter p hm c (hcr ▸ e)
  kernel := by rw [hl _ rfl, hk]; exact h.kernel
  frees t := hf t (h.frees t)

/-- An operation that leaves the address spaces and the log alone. -/
theorem Spaces.of_same (h : Spaces k D) (hp : ∀ p ∈ D, (k'.procs p).space = (k.procs p).space)
    (hc : k'.counters = k.counters) (hk : k'.kernelCr3 = k.kernelCr3) (hi : k'.idle = k.idle)
    (hl : k'.log = k.log) : Spaces k' D :=
  h.congr hp hc hk hi (fun o _ => by rw [hl]) fun t hf => by rwa [hl]

theorem Spaces.of_core (h : Spaces k D) (hc : k'.core = k.core) : Spaces k' D := by
  refine h.congr (fun p _ => (congrArg Process.space (core_proc hc p) :))
    (congrArg (fun x : Kernel => x.counters) hc :) (congrArg (fun x : Kernel => x.kernelCr3) hc :)
    (core_idle hc) (fun o ho => core_alive hc ?_) fun t hf => ?_
  · cases o <;> first | rfl | cases ho
  · have hl : withoutPipes k'.log = withoutPipes k.log := (congrArg (fun x : Kernel => x.log) hc :)
    rw [← freesOk_withoutPipes rfl] at hf ⊢
    rwa [hl]

/-! ## Tables and counters come and go -/

theorem Spaces.emit {d : Call} (h : Spaces k D) (hd : d.obj.isOther = true) :
    Spaces (k.emit d) D := by
  have hne : ∀ o : Obj, o.isOther = false → d.obj ≠ o := fun o ho e => by
    rw [e, ho] at hd
    cases hd
  exact h.congr (fun _ _ => rfl) rfl rfl rfl (fun o ho => alive_cons_ne (hne o ho) _)
    fun t hf => freesOk_cons_ne (hne (.table t) rfl) hf

/-- A table that may be handed out is not in use. -/
theorem Spaces.unused (h : Spaces k D) (hf : k.FreshTable (some t)) (hp : p ∈ D) :
    (k.procs p).cr3 ≠ t := by
  rintro rfl
  by_cases hi : p = k.idle
  · subst hi
    exact hf.2 (congrArg (fun x => some x.1) h.idle)
  · cases (h.table p hp hi).symm.trans (hf.1 _ rfl)

theorem Spaces.allocTable (h : Spaces k D) (ht : t ≠ k.kernelCr3) :
    Spaces (k.emit (.alloc (.table t))) D where
  shares := h.shares
  idle_mem := h.idle_mem
  idle := h.idle
  table p hm hne := by
    show alive (_ :: k.log) (.table (k.procs p).cr3) = true
    rw [alive_alloc, h.table p hm hne, Bool.or_true]
  counter p hm c e := h.counter p hm c e
  kernel := by
    show alive (_ :: k.log) (.table k.kernelCr3) = false
    rw [alive_alloc, h.kernel, Bool.or_false]
    exact decide_eq_false fun e => ht (Obj.table.inj e)
  frees := h.frees

theorem Spaces.freeTable (h : Spaces k D) (ha : alive k.log (.table t) = true)
    (hu : ∀ p ∈ D, p ≠ k.idle → (k.procs p).cr3 ≠ t) : Spaces (k.emit (.free (.table t))) D where
  shares := h.shares
  idle_mem := h.idle_mem
  idle := h.idle
  table p hm hne := by
    have hcr : (Obj.table t) ≠ .table (k.procs p).cr3 := fun e => hu p hm hne (Obj.table.inj e).symm
    exact (alive_cons_ne (c := .free (.table t)) hcr k.log).trans (h.table p hm hne)
  counter p hm c e := h.counter p hm c e
  kernel := by
    show alive (_ :: k.log) (.table k.kernelCr3) = false
    rw [alive_free, h.kernel, Bool.and_false]
  frees u := ⟨fun e => e ▸ ha, h.frees u⟩

theorem Spaces.freeCounter (h : Spaces k D) (hu : ∀ p ∈ D, (k.procs p).vmRefcount ≠ some c) :
    Spaces (k.emit (.free (.counter c))) D where
  shares := h.shares
  idle_mem := h.idle_mem
  idle := h.idle
  table p hm hne := h.table p hm hne
  counter p hm d e := by
    have hd : (Obj.counter c) ≠ .counter d := fun e' => hu p hm (Obj.counter.inj e' ▸ e)
    exact (alive_cons_ne (c := .free (.counter c)) hd k.log).trans (h.counter p hm d e)
  kernel := h.kernel
  frees u := ⟨nofun, h.frees u⟩

/-! ## Processes come and go -/

/-- A process with a table of its own is filled in. -/
theorem Spaces.place_alone (h : Spaces k D) (ha : a ∉ D) (hx : x.vmRefcount = none)
    (hl : alive k.log (.table x.cr3) = true) (hu : ∀ p ∈ D, (k.procs p).cr3 ≠ x.cr3) :
    Spaces (k.place a x) (insert a D) := by
  have hne : ∀ p ∈ D, (k.place a x).procs p = k.procs p := fun p hp =>
    place_ne (ne_of_mem_of_not_mem hp ha)
  have hsame : (k.place a x).procs a = x := place_same
  refine ⟨?_, mem_insert_of_mem h.idle_mem, ?_, fun p hp hi => ?_, fun p hp c e => ?_,
    h.kernel, h.frees⟩
  · refine (h.shares.congr (fun p hp => ?_) (fun p hp => ?_) fun _ _ _ _ => rfl).insert_alone
      ((congrArg Process.vmRefcount hsame).trans hx) fun p hp => ?_
    · rw [hne p hp]
    · rw [hne p hp]
    · rw [hne p hp, hsame]
      exact hu p hp
  · rw [show (k.place a x).idle = k.idle from rfl, hne _ h.idle_mem]
    exact h.idle
  · rcases mem_insert.mp hp with rfl | hp
    · rwa [hsame]
    · rw [hne p hp]
      exact h.table p hp hi
  · rcases mem_insert.mp hp with rfl | hp
    · rw [hsame, hx] at e
      cases e
    · rw [hne p hp] at e
      exact h.counter p hp c e

/-- A thread that shares the table of a process is filled in and counted. -/
theorem Spaces.place_shared (h : Spaces k D) (ha : a ∉ D) (hp : p ∈ D) (hi : p ≠ k.idle)
    (hx : x.space = (k.procs p).space) (hc : (k.procs p).vmRefcount = some c) :
    Spaces ((k.place a x).bumpCounter (some c)) (insert a D) := by
  have hne : ∀ p ∈ D, (k.place a x).procs p = k.procs p := fun p hp =>
    place_ne (ne_of_mem_of_not_mem hp ha)
  have hsame : (k.place a x).procs a = x := place_same
  have hcr : x.cr3 = (k.procs p).cr3 := congrArg Prod.fst hx
  have hxc : x.vmRefcount = some c := (congrArg Prod.snd hx).trans hc
  refine ⟨?_, mem_insert_of_mem h.idle_mem, ?_, fun q hq hi' => ?_, fun q hq d e => ?_,
    h.kernel, h.frees⟩
  · refine (h.shares.congr (fun p hp => ?_) (fun p hp => ?_) fun _ _ _ _ => rfl).insert_shared ha
      hp ?_ ((congrArg Process.vmRefcount hsame).trans hxc)
        ((congrArg Process.vmRefcount (hne p hp)).trans hc)
    · exact congrArg Process.cr3 (hne p hp)
    · exact congrArg Process.vmRefcount (hne p hp)
    · show ((k.place a x).procs a).cr3 = ((k.place a x).procs p).cr3
      rw [hsame, hne p hp, hcr]
  · exact (congrArg Process.space (hne _ h.idle_mem)).trans h.idle
  · have hlive : ∀ q ∈ D, q ≠ k.idle → alive k.log (.table ((k.place a x).procs q).cr3) = true :=
      fun q hq hi' => by
        rw [hne q hq]
        exact h.table q hq hi'
    rcases mem_insert.mp hq with rfl | hq
    · show alive k.log (.table ((k.place q x).procs q).cr3) = true
      rw [hsame, hcr]
      exact h.table p hp hi
    · exact hlive q hq hi'
  · have e : ((k.place a x).procs q).vmRefcount = some d := e
    rcases mem_insert.mp hq with rfl | hq
    · rw [hsame, hxc] at e
      exact h.counter p hp d (hc.trans e)
    · rw [hne q hq] at e
      exact h.counter q hq d e

theorem launch_space (k : Kernel) (a p : Nat) :
    ((k.launch a).procs p).space = (k.procs p).space := by
  unfold Kernel.launch
  have h1 : ((k.enqueueProcess a).procs p).space = (k.procs p).space :=
    enqueueProcess_proj Process.space (fun _ _ _ => rfl) k a p
  refine (mlfqEnqueue_proj Process.space (fun _ _ _ _ => rfl) _ a p).trans (Eq.trans ?_ h1)
  exact modify_proj Process.space rfl

theorem Spaces.launch (h : Spaces k D) (a : Nat) : Spaces (k.launch a) D := by
  have hframe : ∀ {β : Type} (π : Kernel → β), (∀ k : Kernel, ∀ P M q, π { k with
      procs := P, mlfq := M, processQueue := q } = π k) → π (k.launch a) = π k := fun π hπ => by
    unfold Kernel.launch Kernel.enqueueProcess mlfqEnqueue
    dsimp only
    split <;> split <;> first | exact hπ k _ _ _ | skip
    all_goals split <;> exact hπ k _ _ _
  exact h.of_same (fun p _ => launch_space k a p) (hframe (·.counters) fun _ _ _ _ => rfl)
    (hframe (·.kernelCr3) fun _ _ _ _ => rfl) (hframe (·.idle) fun _ _ _ _ => rfl)
    (hframe (·.log) fun _ _ _ _ => rfl)

/-- The processes after a call that may have created one. -/
def withNew (D : Finset Nat) : Option Nat → Finset Nat
  | none => D
  | some a => insert a D

theorem Spaces.createUserProcess (h : Spaces k D) {image : LoadAnswer} {proc : Option Nat}
    (stack : Option Nat) (hf : k.FreshTable image.table) (hp : ∀ a, proc = some a → a ∉ D) :
    Spaces (k.createUserProcess image proc stack).1
      (withNew D (k.createUserProcess image proc stack).2) := by
  cases image with
  | failed => exact h
  | tornDown t =>
    have h1 := h.allocTable (t := t) fun e => hf.2 (congrArg some e)
    exact h1.freeTable (by simp [Kernel.emit]) fun p hp _ => h.unused hf hp
  | loaded t entry rsp brkStart =>
    have hne : t ≠ k.kernelCr3 := fun e => hf.2 (congrArg some e)
    have h1 := h.allocTable hne
    cases proc with
    | none => exact h1.freeTable (by simp [Kernel.emit]) fun p hp _ => h.unused hf hp
    | some a =>
      have h2 := h1.emit (d := .alloc (.process a)) rfl
      cases stack with
      | none =>
        exact (h2.emit (d := .free (.process a)) rfl).freeTable (by simp [Kernel.emit])
          fun p hp _ => h.unused hf hp
      | some st =>
        have h3 := h2.emit (d := .alloc (.stack st)) rfl
        refine (h3.place_alone (hp a rfl) rfl ?_ fun p hp => ?_).launch a
        · simp [Kernel.emit, userProcess]
        · exact h.unused hf hp

/-- `exec_process` by a process that is alone with its table. -/
theorem Spaces.execProcess (h : Spaces k D) {image : LoadAnswer} (hf : k.FreshTable image.table)
    (hp : p ∈ D) (hi : p ≠ k.idle)
    (hc : ∀ t entry rsp brkStart, image = .loaded t entry rsp brkStart →
      ∀ c, (k.procs p).vmRefcount = some c → k.counters c = 1) :
    Spaces (k.execProcess p image) D := by
  cases image with
  | failed => exact h
  | tornDown t =>
    have h1 := h.allocTable (t := t) fun e => hf.2 (congrArg some e)
    exact h1.freeTable (by simp [Kernel.emit]) fun p hp _ => h.unused hf hp
  | loaded t entry rsp brkStart =>
    have hc := hc t entry rsp brkStart rfl
    have hne : t ≠ k.kernelCr3 := fun e => hf.2 (congrArg some e)
    set f : Process → Process := fun x => { x with
      cr3 := t
      entry := entry
      userStackTop := rsp
      brkStart := brkStart
      brk := brkStart
      mmapNext := mmapBase } with hfun
    -- first the process takes its new table, then nobody uses the old one
    have h1 := h.allocTable hne
    have h2 : Spaces ((k.emit (.alloc (.table t))).modify p f) D := by
      have hother : ∀ q, q ≠ p →
          ((k.emit (.alloc (.table t))).modify p f).procs q = k.procs q :=
        fun q hq => modify_ne hq
      have hself : ((k.emit (.alloc (.table t))).modify p f).procs p = f (k.procs p) :=
        modify_same
      have hctr : ∀ q, (((k.emit (.alloc (.table t))).modify p f).procs q).vmRefcount =
          (k.procs q).vmRefcount := fun q => modify_proj Process.vmRefcount rfl
      refine ⟨?_, h.idle_mem, ?_, fun q hq hqi => ?_, fun q hq c e => ?_, h1.kernel, h1.frees⟩
      · refine (h.shares.move hp hc fun q hq => h.unused hf hq).congr (fun q _ => ?_)
          (fun q _ => hctr q) fun _ _ _ _ => rfl
        by_cases hqp : q = p
        · subst hqp
          rw [hself, update_self]
        · rw [hother q hqp, update_of_ne hqp]
      · exact (congrArg Process.space (hother k.idle hi.symm)).trans h.idle
      · by_cases hqp : q = p
        · subst hqp
          rw [hself]
          simp [Kernel.emit, Kernel.modify, hfun]
        · rw [hother q hqp]
          exact h1.table q hq hqi
      · rw [hctr q] at e
        exact h1.counter q hq c e
    refine h2.freeTable ?_ fun q hq _ => ?_
    · exact h1.table p hp hi
    · by_cases hqp : q = p
      · subst hqp
        have : (((k.emit (.alloc (.table t))).modify q f).procs q).cr3 = t :=
          congrArg Process.cr3 modify_same
        rw [this]
        exact (h.unused hf hp).symm
      · have : ((k.emit (.alloc (.table t))).modify p f).procs q = k.procs q := modify_ne hqp
        rw [this]
        exact h.shares.alone hp hc hq hqp

/-! ## `clone_process` -/

/-- What `clone_process` has got for the child: a table that nobody uses yet, or the table and the
counter of the parent. -/
def Claimed (k : Kernel) (D : Finset Nat) (parent table : Nat) : Option Nat → Prop
  | none => alive k.log (.table table) = true ∧ ∀ p ∈ D, (k.procs p).cr3 ≠ table
  | some c => (k.procs parent).space = (table, some c)

/-- A process starts to count itself. -/
theorem Spaces.startCounter (h : Spaces k D) (hp : p ∈ D) (hi : p ≠ k.idle)
    (hctr : (k.procs p).vmRefcount = none) (hc : alive k.log (.counter c) = false) :
    Spaces { (k.emit (.alloc (.counter c))).modify p fun x => { x with vmRefcount := some c } with
      counters := update k.counters c 1 } D := by
  set k₁ := (k.emit (.alloc (.counter c))).modify p fun x => { x with vmRefcount := some c }
    with hk₁
  have hfresh : ∀ q ∈ D, (k.procs q).vmRefcount ≠ some c := fun q hq e => by
    cases (h.counter q hq c e).symm.trans hc
  have hother : ∀ q, q ≠ p → k₁.procs q = k.procs q := fun q hq => modify_ne hq
  have hself : (k₁.procs p).vmRefcount = some c := congrArg Process.vmRefcount modify_same
  have hcr : ∀ q, (k₁.procs q).cr3 = (k.procs q).cr3 := fun q => modify_proj Process.cr3 rfl
  refine ⟨?_, h.idle_mem, ?_, fun q hq hqi => ?_, fun q hq d e => ?_, h.kernel, h.frees⟩
  · refine (h.shares.start hp hctr hfresh).congr (fun q _ => hcr q) (fun q _ => ?_)
      fun _ _ _ _ => rfl
    by_cases hqp : q = p
    · subst hqp
      rw [hself, update_self]
    · rw [hother q hqp, update_of_ne hqp]
  · exact (congrArg Process.space (hother k.idle hi.symm)).trans h.idle
  · have hne : (Call.alloc (.counter c)).obj ≠ .table (k.procs q).cr3 := nofun
    show alive (.alloc (.counter c) :: k.log) (.table (k₁.procs q).cr3) = true
    rw [hcr, alive_cons_ne hne]
    exact h.table q hq hqi
  · have e : (k₁.procs q).vmRefcount = some d := e
    show alive (.alloc (.counter c) :: k.log) (.counter d) = true
    rw [alive_alloc]
    by_cases hqp : q = p
    · rw [hqp, hself] at e
      cases e
      simp
    · rw [hother q hqp] at e
      rw [h.counter q hq d e, Bool.or_true]

theorem Spaces.cloneSpace (h : Spaces k D) (flags : Nat) {ans : CloneAnswer} (hp : p ∈ D)
    (hi : p ≠ k.idle) (hc : k.Fresh .counter ans.counter) (hf : k.FreshTable ans.table) :
    Spaces (k.cloneSpace p flags ans).1 D ∧ ∀ table counter,
      (k.cloneSpace p flags ans).2 = some (table, counter) →
        Claimed (k.cloneSpace p flags ans).1 D p table counter := by
  unfold Kernel.cloneSpace
  split
  · cases hctr : (k.procs p).vmRefcount with
    | some c =>
      refine ⟨h, fun table counter e => ?_⟩
      cases e
      exact congrArg₂ Prod.mk rfl hctr
    | none =>
      cases hans : ans.counter with
      | none => exact ⟨h, nofun⟩
      | some c =>
        refine ⟨h.startCounter hp hi hctr (hc c hans), fun table counter e => ?_⟩
        cases e
        have hself : ((k.emit (.alloc (.counter c))).modify p fun x =>
          { x with vmRefcount := some c }).procs p = _ := modify_same
        exact congrArg₂ Prod.mk rfl (congrArg Process.vmRefcount hself)
  · cases hans : ans.table with
    | none => exact ⟨h, nofun⟩
    | some t =>
      rw [hans] at hf
      refine ⟨h.allocTable fun e => hf.2 (congrArg some e), fun table counter e => ?_⟩
      cases e
      exact ⟨by simp [Kernel.emit], fun q hq => h.unused hf hq⟩

theorem Claimed.emit {parent table : Nat} {counter : Option Nat} {d : Call}
    (hd : d.obj.isOther = true) (hc : Claimed k D parent table counter) :
    Claimed (k.emit d) D parent table counter := by
  cases counter with
  | none =>
    refine ⟨(alive_cons_ne (fun e => ?_) k.log).trans hc.1, hc.2⟩
    rw [e] at hd
    cases hd
  | some c => exact hc

theorem Spaces.cloneUndo {parent table : Nat} {counter : Option Nat} (h : Spaces k D)
    (hc : Claimed k D parent table counter) : Spaces (k.cloneUndo table counter) D := by
  cases counter with
  | none => exact h.freeTable hc.1 fun q hq _ => hc.2 q hq
  | some c => exact h

theorem Spaces.cloneProcess (h : Spaces k D) (flags childStack : Nat) {ans : CloneAnswer}
    (hp : p ∈ D) (hi : p ≠ k.idle) (hc : k.Fresh .counter ans.counter)
    (hf : k.FreshTable ans.table) (ha : ∀ a, ans.child = some a → a ∉ D) :
    Spaces (k.cloneProcess p flags childStack ans).1
      (withNew D (k.cloneProcess p flags childStack ans).2) := by
  obtain ⟨h1, hclaim⟩ := h.cloneSpace flags hp hi hc hf
  have hidle : (k.cloneSpace p flags ans).1.idle = k.idle := by
    unfold Kernel.cloneSpace
    split <;> split <;> first | rfl | (split <;> rfl)
  unfold Kernel.cloneProcess
  generalize k.cloneSpace p flags ans = r at *
  obtain ⟨k₁, sp⟩ := r
  cases sp with
  | none => exact h1
  | some tc =>
    obtain ⟨table, counter⟩ := tc
    have hclaim := hclaim table counter rfl
    cases hchild : ans.child with
    | none => exact h1.cloneUndo hclaim
    | some a =>
      have h2 := h1.emit (d := .alloc (.process a)) rfl
      have hclaim2 := hclaim.emit (d := .alloc (.process a)) rfl
      cases ans.stack with
      | none =>
        exact (h2.emit (d := .free (.process a)) rfl).cloneUndo
          (hclaim2.emit (d := .free (.process a)) rfl)
      | some st =>
        have h3 := h2.emit (d := .alloc (.stack st)) rfl
        have hclaim3 := hclaim2.emit (d := .alloc (.stack st)) rfl
        refine Spaces.launch ?_ a
        have hdup : ∀ {k : Kernel} {D : Finset Nat}, Spaces k D → Spaces (k.dupEnds a) D :=
          fun {k D} h => by
            obtain ⟨P, hP⟩ := dupEnds_eq a (List.finRange maxFds) k
            unfold Kernel.dupEnds
            rw [hP]
            exact h.of_same (fun _ _ => rfl) rfl rfl rfl rfl
        refine hdup ?_
        have ha := ha a hchild
        cases counter with
        | none => exact h3.place_alone ha rfl hclaim3.1 hclaim3.2
        | some c =>
          have hsp : (k₁.procs p).space = (table, some c) := hclaim
          exact h3.place_shared ha hp (hidle ▸ hi) hsp.symm (congrArg Prod.snd hsp)

/-! ## Reaping -/

/-- A process leaves.  Nobody else uses its table if it has no counter or is the last one
counted. -/
theorem Spaces.destroyProcessVm (h : Spaces k D) (hp : p ∈ D) (hi : p ≠ k.idle) :
    Spaces (k.destroyProcessVm p) (D.erase p) := by
  have hlive := h.table p hp hi
  have hk : (k.procs p).cr3 ≠ k.kernelCr3 := fun e => by
    rw [e, h.kernel] at hlive
    cases hlive
  have hgone : ∀ {val}, Shares (D.erase p) (fun q => (k.procs q).cr3)
      (fun q => (k.procs q).vmRefcount) val → Spaces { k with counters := val } (D.erase p) :=
    fun hs => ⟨hs, mem_erase.mpr ⟨hi.symm, h.idle_mem⟩, h.idle,
      fun q hq => h.table q (mem_of_mem_erase hq),
      fun q hq => h.counter q (mem_of_mem_erase hq), h.kernel, h.frees⟩
  have hother : (∀ c, (k.procs p).vmRefcount = some c → k.counters c = 1) →
      ∀ q ∈ D.erase p, (k.procs q).cr3 ≠ (k.procs p).cr3 := fun hc q hq =>
    h.shares.alone hp hc (mem_of_mem_erase hq) (ne_of_mem_erase hq)
  unfold Kernel.destroyProcessVm
  rw [if_neg hk]
  cases hctr : (k.procs p).vmRefcount with
  | none =>
    have hnone : ∀ c, (k.procs p).vmRefcount ≠ some c := fun c e => by cases hctr.symm.trans e
    have hs := h.shares.erase hp (fun _ _ => rfl) fun c e => absurd e (hnone c)
    exact (hgone hs).freeTable hlive fun q hq _ => hother (fun c e => absurd e (hnone c)) q hq
  | some c =>
    have hs : Shares (D.erase p) (fun q => (k.procs q).cr3) (fun q => (k.procs q).vmRefcount)
        (update k.counters c (k.counters c - 1)) := by
      refine h.shares.erase hp (fun d hd => update_of_ne ?_ ..) fun d e => ?_
      · rintro rfl
        exact hd hctr
      · cases hctr.symm.trans e
        exact update_self ..
    dsimp only
    split
    next => exact hgone hs
    next hzero =>
      have hzero : ¬0 < update k.counters c (k.counters c - 1) c := hzero
      rw [update_self] at hzero
      have hpos : 0 < k.counters c := by
        rw [h.shares.count p hp c hctr]
        exact refs_pos.mpr ⟨p, hp, hctr⟩
      have hone : ∀ d, (k.procs p).vmRefcount = some d → k.counters d = 1 := fun d e => by
        cases hctr.symm.trans e
        omega
      refine ((hgone hs).freeCounter fun q hq e => ?_).freeTable ?_ fun q hq _ => hother hone q hq
      · exact hother hone q hq (h.shares.same q (mem_of_mem_erase hq) p hp c e hctr)
      · have hne : (Call.free (.counter c)).obj ≠ .table (k.procs p).cr3 := nofun
        exact (alive_cons_ne hne k.log).trans hlive

theorem Spaces.reap (h : Spaces k D) (hp : p ∈ D) (hi : p ≠ k.idle) :
    Spaces (k.reap p) (D.erase p) := by
  have hspace : ∀ q, ((k.unlink p).procs q).space = (k.procs q).space :=
    fun q => unlink_proj Process.space (fun _ _ _ => rfl) k p q
  have h1 : Spaces (k.unlink p) D := by
    refine h.of_same (fun q _ => hspace q) ?_ ?_ ?_ ?_ <;> rw [unlink_eq]
  have hi1 : p ≠ (k.unlink p).idle := by
    rw [unlink_eq]
    exact hi
  have h2 := h1.emit (d := .free (.stack (k.procs p).kernelStack)) rfl
  exact (h2.destroyProcessVm hp hi1).emit (d := .free (.process p)) rfl

end

end Kernel

end Aeryk
