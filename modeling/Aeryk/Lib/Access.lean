import Mathlib.Data.List.Basic

/-!
# Programs that touch memory

A program in a kernel reads and writes memory that its caller chose.  An access may be *direct*, or
*guarded*: a guarded access that fails sends the program on along another way.  The machine decides
what becomes of an access: it goes through, is abandoned, ends the caller, or brings the system
down.

`exec` says how a program ends and which addresses it has written until then.  Loops over
consecutive addresses are `peeks`, `pokes` and `puts`.
-/

namespace Aeryk.Lib

open List

inductive Access where
  | ok
  | abandoned
  | killed
  | crashed
deriving DecidableEq

/-- The contents of memory, and what becomes of a load or a store at an address. -/
structure Machine where
  byte : Nat → BitVec 8
  touch : (guarded write : Bool) → Nat → Access

/-- Programs that end with a value of `ρ`. -/
inductive Prog (ρ : Type) where
  /-- The end. -/
  | done (r : ρ)
  /-- Nothing happens any more. -/
  | stuck
  /-- A direct load. -/
  | peek (a : Nat) (next : BitVec 8 → Prog ρ)
  /-- A direct store. -/
  | poke (a : Nat) (v : BitVec 8) (next : Prog ρ)
  /-- A guarded store, and where to go on if it is abandoned. -/
  | put (a : Nat) (v : BitVec 8) (next fault : Prog ρ)

inductive Outcome (ρ : Type) where
  | returns (r : ρ)
  | blocks
  | killed
  | crashed

namespace Prog

variable {ρ : Type} {m : Machine} {p q : Prog ρ}

/-- What follows an access.  A direct access that is abandoned ends the caller. -/
def after (a : Access) (next fault : Outcome ρ × List Nat) : Outcome ρ × List Nat :=
  match a with
  | .ok => next
  | .abandoned => fault
  | .killed => (.killed, [])
  | .crashed => (.crashed, [])

/-- How the program ends on a machine, and the addresses it has written, in order. -/
def exec (m : Machine) : Prog ρ → Outcome ρ × List Nat
  | done r => (.returns r, [])
  | stuck => (.blocks, [])
  | peek a next => after (m.touch false false a) (exec m (next (m.byte a))) (.killed, [])
  | poke a _ next =>
    after (m.touch false true a) ((exec m next).1, a :: (exec m next).2) (.killed, [])
  | put a _ next fault =>
    after (m.touch true true a) ((exec m next).1, a :: (exec m next).2) (exec m fault)

def stored (m : Machine) (p : Prog ρ) : List Nat := (exec m p).2

def Crashes (m : Machine) (p : Prog ρ) : Prop := (exec m p).1 = .crashed

/-- The program comes to an end and has stored nothing. -/
def Harmless (m : Machine) (p : Prog ρ) : Prop := ¬Crashes m p ∧ stored m p = []

/-! ## Loads -/

/-- The program goes on as `q` if `P` holds, and otherwise brings the system down. -/
def Goes (m : Machine) (p : Prog ρ) (P : Prop) (q : Prog ρ) : Prop :=
  (P → exec m p = exec m q) ∧ (¬P → exec m p = (.crashed, []))

variable {P Q : Prop} {r : Prog ρ}

theorem Goes.stays (h : P) : Goes m p P p := ⟨fun _ => rfl, fun hn => absurd h hn⟩

theorem Goes.trans (h : Goes m p P q) (h' : P → Goes m q Q r) : Goes m p (P ∧ Q) r := by
  by_cases hp : P
  · rw [Goes, h.1 hp, and_iff_right hp]
    exact h' hp
  · exact ⟨fun hpq => absurd hpq.1 hp, fun _ => h.2 hp⟩

theorem Goes.harmless (h : Goes m p P q) (hq : Harmless m q) (hp : P) : Harmless m p := by
  unfold Harmless Crashes stored
  rw [h.1 hp]
  exact hq

/-- A direct load goes through, or it brings the system down. -/
theorem Goes.load {a : Nat} {next : BitVec 8 → Prog ρ}
    (h : m.touch false false a = .ok ∧ P ∨ m.touch false false a = .crashed ∧ ¬P) :
    Goes m (peek a next) P (next (m.byte a)) := by
  unfold Goes
  rw [exec]
  rcases h with ⟨ht, hp⟩ | ⟨ht, hp⟩
  · rw [ht]
    exact ⟨fun _ => rfl, fun hn => absurd hp hn⟩
  · rw [ht]
    exact ⟨fun h => absurd h hp, fun _ => rfl⟩

/-! ## Loops -/

/-- Direct stores of bytes, the `i`-th and those that follow, to the addresses `f i`, `f (i + 1)`
and so on. -/
def pokes (f : Nat → Nat) : Nat → List (BitVec 8) → Prog ρ → Prog ρ
  | _, [], k => k
  | i, v :: vs, k => poke (f i) v (pokes f (i + 1) vs k)

def puts (f : Nat → Nat) : Nat → List (BitVec 8) → Prog ρ → Prog ρ → Prog ρ
  | _, [], k, _ => k
  | i, v :: vs, k, fault => put (f i) v (puts f (i + 1) vs k fault) fault

/-- Direct loads from the addresses `f i`, `f (i + 1)` and so on, `n` of them. -/
def peeks (f : Nat → Nat) : Nat → Nat → Prog ρ → Prog ρ
  | _, 0, k => k
  | i, n + 1, k => peek (f i) fun _ => peeks f (i + 1) n k

variable {f : Nat → Nat} {i n : Nat} {vs : List (BitVec 8)}

/-- A loop over `n` addresses gets through `x`: the accesses up to it all go through. -/
def Reached (ok : Nat → Prop) (f : Nat → Nat) (i n x : Nat) : Prop :=
  ∃ j < n, x = f (i + j) ∧ ∀ l ≤ j, ok (f (i + l))

theorem not_reached {ok : Nat → Prop} {x : Nat} (h : ¬ok (f i)) : ¬Reached ok f i n x := by
  rintro ⟨j, -, -, hl⟩
  exact h (hl 0 (Nat.zero_le _))

/-- What is asked of the places that a loop comes to, which goes on as long as `go` says. -/
theorem forall_while_succ {P go : Nat → Prop} :
    (∀ j < n + 1, (∀ l < j, go (i + l)) → P (i + j)) ↔
      P i ∧ (go i → ∀ j < n, (∀ l < j, go (i + 1 + l)) → P (i + 1 + j)) := by
  have hshift : ∀ l, i + 1 + l = i + (l + 1) := fun l => by omega
  simp only [hshift]
  constructor
  · intro h
    refine ⟨h 0 (Nat.succ_pos _) fun l hl => absurd hl (Nat.not_lt_zero l), fun h0 j hj hl => ?_⟩
    refine h (j + 1) (Nat.succ_lt_succ hj) fun l hlt => ?_
    cases l with
    | zero => exact h0
    | succ l => exact hl l (Nat.lt_of_succ_lt_succ hlt)
  · rintro ⟨h0, h⟩ j hj hl
    cases j with
    | zero => exact h0
    | succ j =>
      exact h (hl 0 (Nat.succ_pos _)) j (Nat.lt_of_succ_lt_succ hj) fun l hlt =>
        hl (l + 1) (Nat.succ_lt_succ hlt)

theorem forall_lt_succ_shift {P : Nat → Prop} :
    (∀ j < n + 1, P (i + j)) ↔ P i ∧ ∀ j < n, P (i + 1 + j) := by
  have h := @forall_while_succ i n P fun _ => True
  simpa only [implies_true, forall_const] using h

/-- The first address is reached, or a later one from there. -/
theorem reached_succ {ok : Nat → Prop} {x : Nat} (h : ok (f i)) :
    Reached ok f i (n + 1) x ↔ x = f i ∨ Reached ok f (i + 1) n x := by
  have hshift : ∀ l, i + 1 + l = i + (l + 1) := fun l => by omega
  have hall : ∀ j, (∀ l ≤ j + 1, ok (f (i + l))) ↔ ∀ l ≤ j, ok (f (i + 1 + l)) := by
    intro j
    have hiff := @forall_lt_succ_shift i (j + 1) fun a => ok (f a)
    simp only [Nat.lt_succ_iff] at hiff
    exact hiff.trans (and_iff_right h)
  constructor
  · rintro ⟨j, hj, rfl, hl⟩
    cases j with
    | zero => exact .inl rfl
    | succ j =>
      exact .inr ⟨j, Nat.lt_of_succ_lt_succ hj, by rw [hshift], (hall j).mp hl⟩
  · rintro (rfl | ⟨j, hj, rfl, hl⟩)
    · refine ⟨0, Nat.succ_pos _, rfl, fun l hle => ?_⟩
      rw [Nat.le_zero.mp hle]
      exact h
    · exact ⟨j + 1, Nat.succ_lt_succ hj, by rw [hshift], (hall j).mpr hl⟩

section Loops

variable {load store : Nat → Prop}

theorem goes_peeks
    (hload : ∀ a, m.touch false false a = .ok ∧ load a ∨
      m.touch false false a = .crashed ∧ ¬load a) :
    Goes m (peeks f i n p) (∀ j < n, load (f (i + j))) p := by
  induction n generalizing i with
  | zero => exact .stays fun j hj => absurd hj (Nat.not_lt_zero j)
  | succ n ih =>
    rw [forall_lt_succ_shift (P := fun a => load (f a)), peeks]
    exact (Goes.load (hload (f i))).trans fun _ => ih

/-- A loop of direct stores writes all its addresses, or it brings the system down. -/
theorem exec_pokes
    (hstore : ∀ a, m.touch false true a = .ok ∧ store a ∨
      m.touch false true a = .crashed ∧ ¬store a) (hp : Harmless m p) :
    (∀ j < vs.length, store (f (i + j))) ∧ ¬Crashes m (pokes f i vs p) ∧
        (∀ x, x ∈ stored m (pokes f i vs p) ↔ ∃ j < vs.length, x = f (i + j)) ∨
      (¬∀ j < vs.length, store (f (i + j))) ∧ Crashes m (pokes f i vs p) := by
  induction vs generalizing i with
  | nil => exact .inl ⟨by simp, hp.1, fun x => by simp [pokes, hp.2]⟩
  | cons v vs ih =>
    rw [length_cons, forall_lt_succ_shift (P := fun a => store (f a)), pokes]
    unfold Crashes stored at ih ⊢
    rw [exec]
    rcases hstore (f i) with ⟨ht, hs⟩ | ⟨ht, hs⟩
    · rw [ht, and_iff_right hs]
      refine ih.imp (And.imp id (And.imp id fun h x => ?_)) id
      have hsplit : (∃ j < vs.length + 1, x = f (i + j)) ↔
          x = f i ∨ ∃ j < vs.length, x = f (i + 1 + j) := by
        have hiff := @forall_lt_succ_shift i vs.length fun a => ¬x = f a
        simpa only [not_and_or, not_forall, not_not, exists_prop] using not_congr hiff
      rw [hsplit, ← h x]
      exact mem_cons
    · rw [ht]
      exact .inr ⟨fun h => hs h.1, rfl⟩

/-- A loop of guarded stores writes the addresses it gets through. -/
theorem exec_puts
    (hstore : ∀ a, m.touch true true a = .ok ∧ store a ∨
      m.touch true true a = .abandoned ∧ ¬store a) (hp : Harmless m p) (hq : Harmless m q) :
    ¬Crashes m (puts f i vs p q) ∧
      ∀ x, x ∈ stored m (puts f i vs p q) ↔ Reached store f i vs.length x := by
  induction vs generalizing i with
  | nil =>
    refine ⟨hp.1, fun x => ?_⟩
    rw [puts, hp.2]
    exact ⟨fun hx => absurd hx not_mem_nil, fun hx => absurd hx.choose_spec.1 (Nat.not_lt_zero _)⟩
  | cons v vs ih =>
    rw [puts]
    unfold Crashes stored at ih ⊢
    rw [exec]
    rcases hstore (f i) with ⟨ht, hs⟩ | ⟨ht, hs⟩
    · rw [ht]
      refine ⟨ih.1, fun x => ?_⟩
      rw [length_cons, reached_succ hs, ← ih.2]
      exact mem_cons
    · rw [ht]
      refine ⟨hq.1, fun x => ?_⟩
      have hnil : (exec m q).2 = [] := hq.2
      rw [after, hnil]
      exact ⟨fun hx => absurd hx not_mem_nil, fun hx => absurd hx (not_reached hs)⟩

end Loops

end Prog

end Aeryk.Lib
