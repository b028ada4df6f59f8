import Mathlib.Data.List.Basic
import Aeryk.Lib.Guarded

/-!
# Calls in parts

A call runs in parts, and between two of them others may come: `Resume σ` is what is left of it.
The parties share the state and take turns.  An interrupt changes the state at any time.

If nothing comes between the parts of a call, the run is one of whole calls: `undisturbed_keeps`
carries an invariant of the whole calls over to the states in which no call is under way.
-/

namespace Aeryk.Lib

open List

/-- What is left of a call: nothing, or a part and what follows it, by what it finds. -/
inductive Resume (σ : Type) where
  | done
  | part (f : σ → σ) (next : σ → Resume σ)

namespace Resume

variable {σ : Type}

/-- The parts one after the other. -/
def run : Resume σ → σ → σ
  | done, s => s
  | part f next, s => (next s).run (f s)

/-- The parts of one call, and then those of another. -/
def andThen : Resume σ → Resume σ → Resume σ
  | done, q => q
  | part f next, q => part f fun s => (next s).andThen q

/-- `f`, and in one part with it the first part of what follows, by what `f` found. -/
def look (f : σ → σ) (g : σ → Resume σ) : Resume σ :=
  part
    (fun s => match g s with
      | done => f s
      | part h _ => h (f s))
    fun s => match g s with
      | done => done
      | part _ next => next (f s)

theorem run_look (f : σ → σ) (g : σ → Resume σ) (s : σ) : (look f g).run s = (g s).run (f s) := by
  unfold look
  rw [run]
  cases g s <;> rfl

theorem run_andThen (p q : Resume σ) (s : σ) : (p.andThen q).run s = q.run (p.run s) := by
  induction p generalizing s with
  | done => rfl
  | part f next ih => exact ih s (f s)

end Resume

/-- A shared state, and the parties inside a call with what is left of it. -/
structure Shared (σ ι : Type) where
  state : σ
  todo : List (ι × Resume σ)

inductive Act (ι ε : Type) where
  | interrupt (e : ε)
  /-- A party begins a call, with its first part. -/
  | call (i : ι) (e : ε)
  /-- The next part of the call that a party is in. -/
  | go (i : ι)

namespace Shared

variable {σ ε ι : Type} [DecidableEq ι] (step : σ → ε → σ) (program : σ → ε → Resume σ)

/-- Party `i` does a part of `p`. -/
def perform (m : Shared σ ι) (i : ι) : Resume σ → Shared σ ι
  | .done => m
  | .part f next =>
    let rest := m.todo.filter (·.1 ≠ i)
    ⟨f m.state, match next m.state with
      | .done => rest
      | p => (i, p) :: rest⟩

def act (m : Shared σ ι) : Act ι ε → Shared σ ι
  | .interrupt e => { m with state := step m.state e }
  | .call i e => m.perform i (program m.state e)
  | .go i => m.perform i ((m.todo.lookup i).getD .done)

/-- Nothing but the next part comes while a call is under way. -/
def Undisturbed (m : Shared σ ι) : Act ι ε → Prop
  | .go _ => True
  | _ => m.todo.isEmpty = true

instance (m : Shared σ ι) : (a : Act ι ε) → Decidable (m.Undisturbed a)
  | .go _ => isTrue trivial
  | .interrupt _ | .call .. => inferInstanceAs (Decidable (_ = _))

/-- The state with the call that is under way, if there is one, carried to its end. -/
def completed (m : Shared σ ι) : Option σ :=
  match m.todo with
  | [] => some m.state
  | [(_, p)] => some (p.run m.state)
  | _ => none

variable {step program} {m : Shared σ ι} {i : ι} {p : Resume σ}

omit [DecidableEq ι] in
theorem completed_of_nil (h : m.todo = []) : m.completed = some m.state := by
  rw [completed, h]

/-- A part of a call, if there is no other. -/
theorem completed_perform (h : m.todo.filter (·.1 ≠ i) = []) (hp : p = .done → m.todo = []) :
    (m.perform i p).completed = some (p.run m.state) := by
  cases p with
  | done => exact completed_of_nil (hp rfl)
  | part f next =>
    rw [perform, h, Resume.run]
    cases next m.state with
    | done => rfl
    | part g after => rfl

/-- The next part leads to the same end. -/
theorem completed_go (h : m.completed ≠ none) :
    (m.perform i ((m.todo.lookup i).getD .done)).completed = m.completed := by
  obtain ⟨s, todo⟩ := m
  cases todo with
  | nil => rfl
  | cons e rest =>
    cases rest with
    | cons => exact absurd rfl h
    | nil =>
      obtain ⟨j, q⟩ := e
      by_cases hj : i = j
      · subst hj
        rw [lookup_cons_self, Option.getD_some]
        cases q with
        | done => rfl
        | part f next => exact completed_perform (by simp) nofun
      · have hnone : [(j, q)].lookup i = none := by
          simpa [List.lookup_eq_none_iff] using hj
        rw [hnone]
        rfl

/-- What whole calls and interrupts keep holds of undisturbed runs, with the last call carried to
its end. -/
theorem undisturbed_keeps {C : σ → ε → Prop} {I : σ → Prop}
    (hrun : ∀ s e, (program s e).run s = step s e)
    (hstep : ∀ s e, I s → C s e → I (step s e)) {P : Shared σ ι → Act ι ε → Prop}
    (hC : ∀ m e, (P m (.interrupt e) ∨ ∃ i, P m (.call i e)) → C m.state e)
    {acts : List (Act ι ε)}
    (h : Along (fun m a => P m a ∧ m.Undisturbed a) (act step program) m acts)
    (hm : ∃ s, m.completed = some s ∧ I s) :
    ∃ s, (acts.foldl (act step program) m).completed = some s ∧ I s := by
  refine h.keeps (I := fun m => ∃ s, m.completed = some s ∧ I s) ?_ hm
  rintro m a ⟨s, hs, hI⟩ ⟨hP, hquiet⟩
  cases a with
  | interrupt e =>
    have hnil := isEmpty_iff.mp hquiet
    obtain rfl := Option.some.inj ((completed_of_nil hnil).symm.trans hs)
    exact ⟨_, completed_of_nil hnil, hstep _ e hI (hC m e (.inl hP))⟩
  | call i e =>
    have hnil := isEmpty_iff.mp hquiet
    obtain rfl := Option.some.inj ((completed_of_nil hnil).symm.trans hs)
    refine ⟨_, completed_perform (by rw [hnil, filter_nil]) fun _ => hnil, ?_⟩
    rw [hrun]
    exact hstep _ e hI (hC m e (.inr ⟨i, hP⟩))
  | go i => exact ⟨s, (completed_go (by rw [hs]; nofun)).trans hs, hI⟩

end Shared

end Aeryk.Lib
