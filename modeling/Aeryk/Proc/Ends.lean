import Aeryk.Lib.Refs
import Aeryk.Proc.Schedule

/-!
# Pipe ends and the slots that hold them

A slot is a pair of a process and an index into its descriptor table.  `Ends k D` says that the
counters of the live pipes agree with the slots among `D`, which are well formed.  Between a step
of a counter and the store to the slot it belongs to, that slot is not among `D`.
-/

namespace Aeryk

open Finset Function Lib

/-- The end of a pipe a descriptor holds: the pipe, and whether it is the read end. -/
def FileDescriptor.ref (d : FileDescriptor) : Option (Nat × Bool) :=
  match d.type, d.pipe with
  | .pipeRead, some p => some (p, true)
  | .pipeWrite, some p => some (p, false)
  | _, _ => none

/-- `readers` or `writers`. -/
def Pipe.ends {Q : Type} (p : Pipe Q) (isReadEnd : Bool) : Nat :=
  if isReadEnd then p.readers else p.writers

abbrev Slot := Nat × Fin maxFds

/-- The descriptor has a type that goes with its pipe. -/
structure FileDescriptor.Ok (d : FileDescriptor) : Prop where
  blank : d.type = .none → d.pipe = none
  points : d.type = .pipeRead ∨ d.type = .pipeWrite → d.pipe ≠ none

namespace Kernel

def slot (k : Kernel) (s : Slot) : FileDescriptor := k.fd s.1 s.2

def slotRef (k : Kernel) (s : Slot) : Option (Nat × Bool) := (k.slot s).ref

/-- The slots among `D` are well formed and the pipes count them. -/
structure Ends (k : Kernel) (D : Finset Slot) : Prop where
  ok : ∀ s ∈ D, (k.slot s).Ok
  live : ∀ s ∈ D, ∀ {x r}, k.slotRef s = some (x, r) → alive k.log (.pipe x) = true
  counts : ∀ {x}, alive k.log (.pipe x) = true → ∀ r,
    (k.pipes x).ends r = refs k.slotRef D (x, r)
  held : ∀ {x}, alive k.log (.pipe x) = true → ∃ r, 0 < (k.pipes x).ends r
  frees : ∀ x, FreesOk (.pipe x) k.log

section

variable {k k' : Kernel} {D D' : Finset Slot} {s : Slot} {x : Nat} {r : Bool}

theorem ref_none_of_type {d : FileDescriptor} (h : d.type = .none ∨ d.type = .vfs) :
    d.ref = none := by
  unfold FileDescriptor.ref
  rcases h with h | h <;> rw [h]

theorem ok_of_none {d : FileDescriptor} (ht : d.type = .none) (hp : d.pipe = none) : d.Ok :=
  ⟨fun _ => hp, fun h => by rw [ht] at h; rcases h with h | h <;> cases h⟩

theorem ok_of_pipe {d : FileDescriptor} (ht : d.type = .pipeRead ∨ d.type = .pipeWrite)
    (hp : d.pipe ≠ none) : d.Ok :=
  ⟨fun h => (by rw [h] at ht; rcases ht with ht | ht <;> cases ht), fun _ => hp⟩

theorem ok_of_vfs {d : FileDescriptor} (ht : d.type = .vfs) : d.Ok :=
  ⟨fun h => (by rw [ht] at h; cases h), fun h => by rw [ht] at h; rcases h with h | h <;> cases h⟩

theorem dupEnd_of_ref_none {d : FileDescriptor} (h : d.ref = none) : k.dupEnd d = k := by
  unfold FileDescriptor.ref at h
  unfold dupEnd
  split <;> simp_all

theorem dropEnd_of_ref_none {d : FileDescriptor} (h : d.ref = none) : k.dropEnd d = k := by
  unfold FileDescriptor.ref at h
  unfold dropEnd
  split <;> simp_all

theorem dropEnd_of_ref {d : FileDescriptor} (h : d.ref = some (x, r)) :
    k.dropEnd d = k.pipeCloseEnd x r := by
  unfold FileDescriptor.ref at h
  unfold dropEnd
  split <;> simp_all

def addEnd (k : Kernel) (x : Nat) (r : Bool) : Kernel :=
  k.setPipe x (if r then { k.pipes x with readers := (k.pipes x).readers + 1 }
    else { k.pipes x with writers := (k.pipes x).writers + 1 })

theorem dupEnd_of_ref {d : FileDescriptor} (h : d.ref = some (x, r)) :
    k.dupEnd d = k.addEnd x r := by
  unfold FileDescriptor.ref at h
  unfold dupEnd addEnd
  split <;> simp_all

/-! ## What the counters do -/

theorem setPipe_same {q : Pipe WaitQueue} : (k.setPipe x q).pipes x = q := update_self ..

theorem setPipe_ne {y : Nat} {q : Pipe WaitQueue} (h : y ≠ x) :
    (k.setPipe x q).pipes y = k.pipes y := update_of_ne h ..

theorem addEnd_ends (y : Nat) (e : Bool) : ((k.addEnd x r).pipes y).ends e =
    (k.pipes y).ends e + if (y, e) = (x, r) then 1 else 0 := by
  by_cases hy : y = x
  · subst hy
    rw [addEnd, setPipe_same]
    cases r <;> cases e <;> simp [Pipe.ends]
  · rw [addEnd, setPipe_ne hy, if_neg (fun h => hy (congrArg Prod.fst h)), Nat.add_zero]

theorem closeEnd_ends {p : Pipe WaitQueue} (e : Bool) :
    (closeEnd p r).ends e = p.ends e - if e = r then 1 else 0 := by
  cases r <;> cases e <;> simp [Pipe.ends, closeEnd]

theorem shouldFree_iff {p : Pipe WaitQueue} : shouldFree p = true ↔ ∀ e, p.ends e = 0 := by
  simp [shouldFree, Pipe.ends, and_comm]

theorem wakeLoop_rest (w : WaitId) (n : Nat) (k : Kernel) : (wakeLoop w n k).rest = k.rest := by
  induction n generalizing k with
  | zero => rfl
  | succ n ih =>
    have hpop := waitQueuePop_rest k w
    unfold wakeLoop
    generalize k.waitQueuePop w = r at hpop ⊢
    obtain ⟨k₁, p⟩ := r
    cases p with
    | none => exact hpop
    | some p => exact (ih _).trans ((mlfqEnqueue_rest k₁ p).trans hpop)

theorem wakeAll_rest (k : Kernel) (w : WaitId) : (k.wakeAll w).rest = k.rest :=
  wakeLoop_rest w k.nextPid k

theorem rest_ends (h : k'.rest = k.rest) (x : Nat) (r : Bool) :
    (k'.pipes x).ends r = (k.pipes x).ends r := by
  have h1 := (congrArg Pipe.readers (rest_pipe h x) :)
  have h2 := (congrArg Pipe.writers (rest_pipe h x) :)
  cases r
  · exact h2
  · exact h1

/-- `pipe_close_end` as far as the counters and the log go. -/
theorem pipeCloseEnd_rest (k : Kernel) (x : Nat) (r : Bool) :
    (k.pipeCloseEnd x r).rest =
      (if shouldFree (closeEnd (k.pipes x) r) then
        (k.setPipe x (closeEnd (k.pipes x) r)).emit (.free (.pipe x))
      else k.setPipe x (closeEnd (k.pipes x) r)).rest := by
  unfold pipeCloseEnd
  dsimp only
  rw [setPipe_same]
  have h := (wakeAll_rest _ (.pipeRead x)).trans
    (wakeAll_rest (k.setPipe x (closeEnd (k.pipes x) r)) (.pipeWrite x))
  split
  · have he : ∀ k : Kernel, (k.emit (.free (.pipe x))).rest = k.rest.emit (.free (.pipe x)) :=
      fun _ => rfl
    rw [he, he, h]
  · exact h

/-! ## Slots and counters in step -/

theorem Ends.congr (h : Ends k D) (hs : ∀ s ∈ D, k'.slot s = k.slot s)
    (hp : ∀ x r, (k'.pipes x).ends r = (k.pipes x).ends r)
    (hl : ∀ x, alive k'.log (.pipe x) = alive k.log (.pipe x))
    (hf : ∀ x, FreesOk (.pipe x) k.log → FreesOk (.pipe x) k'.log) : Ends k' D where
  ok s hm := hs s hm ▸ h.ok s hm
  live s hm x r e := by
    unfold slotRef at e
    rw [hl]
    exact h.live s hm (hs s hm ▸ e)
  counts {x} ha r := by
    rw [hp, h.counts (hl x ▸ ha) r]
    refine refs_congr fun s => and_congr_right fun hm => ?_
    simp only [slotRef, hs s hm]
  held {x} ha := by
    simp only [hp]
    exact h.held (hl x ▸ ha)
  frees x := hf x (h.frees x)

theorem Ends.of_rest (h : Ends k D) (hr : k'.rest = k.rest) : Ends k' D :=
  h.congr (fun s _ => rest_fd hr s.1 s.2) (rest_ends hr) (fun x => by rw [rest_log hr])
    fun x hf => by rwa [rest_log hr]

/-- Slots that hold no end may come and go. -/
theorem Ends.resize (h : Ends k D) (hin : ∀ s ∈ D', s ∉ D → (k.slot s).Ok ∧ k.slotRef s = none)
    (hout : ∀ s ∈ D, s ∉ D' → k.slotRef s = none) : Ends k D' where
  ok s hm := by
    by_cases hd : s ∈ D
    · exact h.ok s hd
    · exact (hin s hm hd).1
  live s hm x r e := by
    by_cases hd : s ∈ D
    · exact h.live s hd e
    · rw [(hin s hm hd).2] at e
      cases e
  counts {x} ha r := by
    rw [h.counts ha r]
    refine refs_congr fun s => ?_
    constructor
    · rintro ⟨hm, e⟩
      refine ⟨by_contra fun hd => ?_, e⟩
      rw [hout s hm hd] at e
      cases e
    · rintro ⟨hm, e⟩
      refine ⟨by_contra fun hd => ?_, e⟩
      rw [(hin s hm hd).2] at e
      cases e
  held := h.held
  frees := h.frees

theorem setFd_slot_ne {t : Slot} {d : FileDescriptor} (h : t ≠ s) :
    (k.setFd s.1 s.2 d).slot t = k.slot t := by
  unfold slot fd setFd
  by_cases h1 : t.1 = s.1
  · have h2 : t.2 ≠ s.2 := fun e => h (Prod.ext h1 e)
    rw [h1, modify_same]
    exact update_of_ne h2 ..
  · rw [modify_ne h1]

theorem setFd_slot_same {d : FileDescriptor} : (k.setFd s.1 s.2 d).slot s = d := by
  unfold slot fd setFd
  rw [modify_same]
  exact update_self ..

/-- A store to a slot outside. -/
theorem Ends.setFd {d : FileDescriptor} (h : Ends k D) (hs : s ∉ D) :
    Ends (k.setFd s.1 s.2 d) D :=
  h.congr (fun _ ht => setFd_slot_ne fun e => hs (e ▸ ht)) (fun _ _ => rfl) (fun _ => rfl)
    fun _ hf => hf

/-- A slot that holds no end takes its place. -/
theorem Ends.insert_none (h : Ends k D) (hok : (k.slot s).Ok) (hr : k.slotRef s = none) :
    Ends k (insert s D) :=
  h.resize (fun _ ht hd => by
    obtain rfl := (mem_insert.mp ht).resolve_right hd
    exact ⟨hok, hr⟩) fun _ ht hd => (hd (mem_insert_of_mem ht)).elim

theorem Ends.erase_none (h : Ends k D) (hr : k.slotRef s = none) : Ends k (D.erase s) :=
  h.resize (fun _ ht hd => (hd (mem_of_mem_erase ht)).elim) fun t ht hd => by
    obtain rfl : t = s := by_contra fun hne => hd (mem_erase.mpr ⟨hne, ht⟩)
    exact hr

/-- A copied descriptor is counted. -/
theorem Ends.dup (h : Ends k D) (hs : s ∉ D) (hok : (k.slot s).Ok)
    (hl : ∀ {x r}, k.slotRef s = some (x, r) → alive k.log (.pipe x) = true) :
    Ends (k.dupEnd (k.slot s)) (insert s D) := by
  rcases hr : k.slotRef s with _ | ⟨x, r⟩
  · rw [dupEnd_of_ref_none hr]
    exact h.insert_none hok hr
  · rw [dupEnd_of_ref hr]
    refine ⟨fun t ht => ?_, fun t ht y e he => ?_, fun {y} hy e => ?_, fun {y} hy => ?_, h.frees⟩
    · rcases mem_insert.mp ht with rfl | ht
      · exact hok
      · exact h.ok t ht
    · rcases mem_insert.mp ht with rfl | ht
      · exact hl he
      · exact h.live t ht he
    · rw [addEnd_ends, h.counts hy e]
      split
      next he => exact (refs_insert_same hs (he ▸ hr)).symm
      next he => exact (refs_insert_ne fun e' => he (Option.some.inj (e'.symm.trans hr))).symm
    · obtain ⟨e, he⟩ := h.held hy
      exact ⟨e, by rw [addEnd_ends]; omega⟩

theorem alive_free_pipe {log : List Call} {y : Nat} :
    alive (.free (.pipe x) :: log) (.pipe y) = true ↔ y ≠ x ∧ alive log (.pipe y) = true := by
  rw [alive_free, Bool.and_eq_true, decide_eq_true_iff]
  exact and_congr_left' ⟨fun h e => h (congrArg _ e.symm), fun h e => h (Obj.pipe.inj e).symm⟩

/-- A descriptor that goes away is not counted any more, and the pipe is freed with its
last end. -/
theorem Ends.drop (h : Ends k D) (hs : s ∈ D) :
    Ends (k.dropEnd (k.slot s)) (D.erase s) := by
  rcases hr : k.slotRef s with _ | ⟨x, r⟩
  · rw [dropEnd_of_ref_none hr]
    exact h.erase_none hr
  rw [dropEnd_of_ref hr]
  refine Ends.of_rest ?_ (pipeCloseEnd_rest k x r)
  have hx := h.live s hs hr
  have hends : ∀ {y}, alive k.log (.pipe y) = true → ∀ e,
      ((k.setPipe x (closeEnd (k.pipes x) r)).pipes y).ends e =
        refs k.slotRef (D.erase s) (y, e) := by
    intro y hy e
    by_cases hyx : y = x
    · subst hyx
      rw [setPipe_same, closeEnd_ends, h.counts hy]
      split
      next he => subst he; rw [← refs_erase_same hs hr]; rfl
      next he =>
        refine (refs_erase_ne fun e' => he ?_).symm
        exact (congrArg Prod.snd (Option.some.inj (e'.symm.trans hr)) :)
    · rw [setPipe_ne hyx, h.counts hy]
      refine (refs_erase_ne fun e' => hyx ?_).symm
      exact (congrArg Prod.fst (Option.some.inj (e'.symm.trans hr)) :)
  have hmem : ∀ t ∈ D.erase s, t ∈ D := fun t ht => mem_of_mem_erase ht
  split
  next hfree =>
    rw [shouldFree_iff] at hfree
    have hzero : ∀ t ∈ D.erase s, ∀ e, k.slotRef t ≠ some (x, e) := fun t ht e => by
      have h0 := hends hx e
      rw [setPipe_same, hfree e] at h0
      exact refs_eq_zero.mp h0.symm t ht
    refine ⟨fun t ht => h.ok t (hmem t ht), fun t ht y e he => ?_, fun {y} hy => ?_,
      fun {y} hy => ?_, fun y => ⟨fun e => Obj.pipe.inj e ▸ hx, h.frees y⟩⟩
    · refine alive_free_pipe.mpr ⟨?_, h.live t (hmem t ht) he⟩
      rintro rfl
      exact hzero t ht e he
    · exact hends (alive_free_pipe.mp hy).2
    · obtain ⟨hne, hy⟩ := alive_free_pipe.mp hy
      obtain ⟨e, he⟩ := h.held hy
      refine ⟨e, ?_⟩
      have hp : ((k.setPipe x (closeEnd (k.pipes x) r)).emit (.free (.pipe x))).pipes y =
        k.pipes y := setPipe_ne hne
      rwa [hp]
  next hfree =>
    refine ⟨fun t ht => h.ok t (hmem t ht), fun t ht y e he => h.live t (hmem t ht) he, hends,
      fun {y} hy => ?_, h.frees⟩
    by_cases hyx : y = x
    · subst hyx
      rw [setPipe_same]
      by_contra hno
      push Not at hno
      exact hfree (shouldFree_iff.mpr fun e => Nat.le_zero.mp (hno e))
    · rw [setPipe_ne hyx]
      exact h.held hy

theorem alive_alloc_pipe {log : List Call} {y : Nat} :
    alive (.alloc (.pipe x) :: log) (.pipe y) = true ↔ y = x ∨ alive log (.pipe y) = true := by
  rw [alive_alloc, Bool.or_eq_true, decide_eq_true_iff]
  exact or_congr_left ⟨fun h => (Obj.pipe.inj h).symm, fun h => h ▸ rfl⟩

/-- A new pipe is counted by the two slots it is put into. -/
theorem Ends.create {a b : Slot} {q : WaitQueue} (h : Ends k D) (ha : a ∉ D) (hb : b ∉ D)
    (hx : alive k.log (.pipe x) = false) (hlog : k'.log = .alloc (.pipe x) :: k.log)
    (hpx : k'.pipes x = pipeCreate q) (hp : ∀ y, y ≠ x → k'.pipes y = k.pipes y)
    (hs : ∀ s ∈ D, k'.slot s = k.slot s) (hoka : (k'.slot a).Ok) (hokb : (k'.slot b).Ok)
    (hra : k'.slotRef a = some (x, true)) (hrb : k'.slotRef b = some (x, false)) :
    Ends k' (insert a (insert b D)) := by
  have hab : a ∉ insert b D := fun hm => by
    rcases mem_insert.mp hm with rfl | hm
    · cases hra.symm.trans hrb
    · exact ha hm
  have hrefs : ∀ y e, refs k'.slotRef D (y, e) = refs k.slotRef D (y, e) := fun y e =>
    refs_congr fun s => and_congr_right fun hm => by simp only [slotRef, hs s hm]
  have hD : ∀ s ∈ D, ∀ e, k.slotRef s ≠ some (x, e) := fun s hm e he => by
    have := h.live s hm he
    rw [hx] at this
    cases this
  refine ⟨fun s hm => ?_, fun s hm y e he => ?_, fun {y} hy e => ?_, fun {y} hy => ?_, fun y => ?_⟩
  · have hold := h.ok s
    grind
  · rw [hlog, alive_alloc_pipe]
    have hold : s ∈ D → alive k.log (.pipe y) = true := fun hm => by
      unfold slotRef at he
      exact h.live s hm (hs s hm ▸ he)
    grind
  · by_cases hyx : y = x
    · subst hyx
      have hzero : refs k'.slotRef D (y, e) = 0 :=
        (hrefs y e).trans (refs_eq_zero.mpr fun s hm => hD s hm e)
      rw [hpx]
      cases e with
      | true =>
        rw [refs_insert_same hab hra, refs_insert_ne (by simp [hrb]), hzero]
        rfl
      | false =>
        rw [refs_insert_ne (by simp [hra]), refs_insert_same hb hrb, hzero]
        rfl
    · have hy' : alive k.log (.pipe y) = true :=
        (alive_alloc_pipe.mp (hlog ▸ hy)).resolve_left hyx
      rw [hp y hyx, h.counts hy', refs_insert_ne (by simp [hra, Ne.symm hyx]),
        refs_insert_ne (by simp [hrb, Ne.symm hyx]), hrefs]
  · by_cases hyx : y = x
    · subst hyx
      rw [hpx]
      exact ⟨true, Nat.one_pos⟩
    · rw [hp y hyx]
      exact h.held ((alive_alloc_pipe.mp (hlog ▸ hy)).resolve_left hyx)
  · rw [hlog]
    exact h.frees y

/-! ## The loop of `clone_process` -/

theorem dupEnd_slot (d : FileDescriptor) (t : Slot) : (k.dupEnd d).slot t = k.slot t := by
  unfold dupEnd
  split <;> rfl

theorem dupEnd_log (d : FileDescriptor) : (k.dupEnd d).log = k.log := by
  unfold dupEnd
  split <;> rfl

/-- The slots of the child are counted one after the other. -/
theorem Ends.dupEnds {a : Nat} {L : List (Fin maxFds)} (h : Ends k D) (hL : L.Nodup)
    (hout : ∀ i ∈ L, (a, i) ∉ D) (hok : ∀ i ∈ L, (k.slot (a, i)).Ok)
    (hl : ∀ i ∈ L, ∀ {x r}, k.slotRef (a, i) = some (x, r) → alive k.log (.pipe x) = true) :
    Ends (L.foldl (fun k i => k.dupEnd (k.fd a i)) k) (D ∪ L.toFinset.image fun i => (a, i)) := by
  induction L generalizing k D with
  | nil => simpa using h
  | cons i L ih =>
    rw [List.nodup_cons] at hL
    have h1 := h.dup (hout i List.mem_cons_self) (hok i List.mem_cons_self)
      (hl i List.mem_cons_self)
    have h2 := ih h1 hL.2
      (fun j hj hm => by
        rcases mem_insert.mp hm with e | hm
        · have hji : j = i := congrArg Prod.snd e
          exact hL.1 (hji ▸ hj)
        · exact hout j (List.mem_cons_of_mem _ hj) hm)
      (fun j hj => by
        rw [dupEnd_slot]
        exact hok j (List.mem_cons_of_mem _ hj))
      (fun j hj x r he => by
        rw [dupEnd_log]
        refine hl j (List.mem_cons_of_mem _ hj) (r := r) ?_
        rwa [slotRef, dupEnd_slot] at he)
    have hset : (D ∪ (i :: L).toFinset.image fun i => (a, i)) =
        insert (a, i) D ∪ L.toFinset.image fun i => (a, i) := by
      rw [List.toFinset_cons, image_insert, union_insert, insert_union]
    rw [List.foldl_cons, hset]
    exact h2

end

end Kernel

end Aeryk
