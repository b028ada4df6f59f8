import Mathlib.Data.List.Basic
import Mathlib.Tactic.Ring

/-!
# `SYS_sleep_ms`

The call turns the milliseconds into timer ticks, by a sum of 32 bits that rounds up, adds them to
`ticks`, and leaves the CPU until `ticks` has come that far.

Time is counted in units of which `u` make a millisecond.  The timer has an edge every 10 ms, and
`on_irq0` may run later than its edge, but not before it.  When the process asks again is up to the
others, so the events of a run come in any order.  The deadline counts edges, and the first of them
comes after what is left of the current period, so the sleep is short by the part that was over.
-/

namespace Aeryk.Sleep

def timerHz : BitVec 32 := 100#32

/-- `wake_tick`.  `ticks` has 64 bits and does not come to its end. -/
def wakeTick (ticks : Nat) (ms : BitVec 32) : Nat :=
  ticks + ((ms + 1000#32 / timerHz - 1#32) / (1000#32 / timerHz)).toNat

structure Sleeper where
  now : Nat
  ticks : Nat
  wakeTick : Nat
  /-- When the call has returned. -/
  returned : Option Nat

inductive Event where
  | pass (units : Nat)
  | irq0
  /-- The process has the CPU and tests the condition of its loop. -/
  | turn

def period (u : Nat) : Nat := 10 * u

/-- `on_irq0` runs for an edge that has come, and the loop is left once the tick is reached. -/
def step (u : Nat) (s : Sleeper) : Event → Sleeper
  | .pass units => { s with now := s.now + units }
  | .irq0 => if s.ticks < s.now / period u then { s with ticks := s.ticks + 1 } else s
  | .turn =>
    if s.returned = none ∧ ¬s.ticks < s.wakeTick then { s with returned := some s.now } else s

def sysSleepMs (u now : Nat) (ms : BitVec 32) : Sleeper where
  now
  ticks := now / period u
  wakeTick := wakeTick (now / period u) ms
  returned := none

/-- The process tests its condition at once, and then whenever it has a turn. -/
def run (u now : Nat) (ms : BitVec 32) (events : List Event) : Sleeper :=
  (Event.turn :: events).foldl (step u) (sysSleepMs u now ms)

section

variable {u now t : Nat} {ms : BitVec 32} {s : Sleeper}

/-! ## The number of ticks -/

/-- The number of ticks is rounded up, but for the largest numbers, which wrap around. -/
theorem wakeTick_eq (ticks : Nat) (ms : BitVec 32) :
    wakeTick ticks ms = ticks + (ms.toNat + 9) % 2 ^ 32 / 10 := by
  have hten : (1000#32 / timerHz) = 10#32 := by decide
  unfold wakeTick
  rw [hten, BitVec.toNat_udiv, BitVec.toNat_sub, BitVec.toNat_add]
  have := ms.isLt
  simp only [BitVec.toNat_ofNat]
  congr 2
  omega

/-! ## No run returns before the last edge -/

/-- No tick is counted before its edge, and the call returns with its tick or later. -/
structure Timed (u now wake : Nat) (s : Sleeper) : Prop where
  wakeTick : s.wakeTick = wake
  counted : s.ticks ≤ s.now / period u
  after : now ≤ s.now
  returned : ∀ t, s.returned = some t → wake ≤ t / period u ∧ now ≤ t

theorem Timed.step {wake : Nat} (h : Timed u now wake s) (e : Event) :
    Timed u now wake (step u s e) := by
  cases e with
  | pass units =>
    refine ⟨h.wakeTick, h.counted.trans ?_, Nat.le_add_right_of_le h.after, h.returned⟩
    exact Nat.div_le_div_right (Nat.le_add_right _ _)
  | irq0 =>
    unfold Sleep.step
    dsimp only
    split
    next hedge => exact ⟨h.wakeTick, hedge, h.after, h.returned⟩
    · exact h
  | turn =>
    unfold Sleep.step
    dsimp only
    split
    next hdone =>
      refine ⟨h.wakeTick, h.counted, h.after, fun t ht => ?_⟩
      obtain rfl := Option.some.inj ht
      rw [h.wakeTick] at hdone
      exact ⟨(Nat.le_of_not_lt hdone.2).trans h.counted, h.after⟩
    · exact h

theorem timed_run (u now : Nat) (ms : BitVec 32) (events : List Event) :
    Timed u now (wakeTick (now / period u) ms) (run u now ms events) := by
  unfold run
  generalize Event.turn :: events = es
  have hstart : Timed u now (wakeTick (now / period u) ms) (sysSleepMs u now ms) :=
    ⟨rfl, Nat.le_refl _, Nat.le_refl _, fun _ ht => by cases ht⟩
  generalize sysSleepMs u now ms = s at hstart
  induction es generalizing s with
  | nil => exact hstart
  | cons e es ih => exact ih _ (hstart.step e)

/-! ## The shortest run -/

/-- Any number of edges that have come can be counted. -/
theorem irq0s {n : Nat} (h : s.ticks + n ≤ s.now / period u) :
    (List.replicate n .irq0).foldl (step u) s = { s with ticks := s.ticks + n } := by
  induction n generalizing s with
  | zero => rfl
  | succ n ih =>
    have hirq : step u s .irq0 = { s with ticks := s.ticks + 1 } := if_pos (by omega)
    rw [List.replicate_succ, List.foldl_cons, hirq, ih (by dsimp only; omega)]
    rw [Nat.add_assoc, Nat.add_comm 1]

/-- The process comes back with the last edge, or at once if there is none to wait for. -/
theorem exists_run (hu : 0 < u) (now : Nat) (ms : BitVec 32) :
    ∃ events, (run u now ms events).returned =
      some (max now (wakeTick (now / period u) ms * period u)) := by
  have hpos : 0 < period u := by
    unfold period
    omega
  have hphase := Nat.div_add_mod now (period u)
  have hless := Nat.mod_lt now hpos
  rw [wakeTick_eq]
  generalize hn : (ms.toNat + 9) % 2 ^ 32 / 10 = n
  have hwake : (sysSleepMs u now ms).wakeTick = now / period u + n := by
    rw [← hn]
    exact wakeTick_eq ..
  rw [Nat.mul_comm]
  cases n with
  | zero =>
    refine ⟨[], ?_⟩
    have hturn : step u (sysSleepMs u now ms) .turn =
        { sysSleepMs u now ms with returned := some now } :=
      if_pos ⟨rfl, by rw [hwake]; exact Nat.lt_irrefl _⟩
    rw [run, List.foldl_cons, hturn, Nat.add_zero, Nat.max_eq_left (by omega)]
    rfl
  | succ n =>
    have hmul : period u * (now / period u + (n + 1)) =
        period u * (now / period u) + period u * n + period u := by ring
    generalize hend : period u * (now / period u + (n + 1)) = stop at *
    have hstop : stop / period u = now / period u + (n + 1) := by
      rw [← hend, Nat.mul_div_cancel_left _ hpos]
    have hturn : step u (sysSleepMs u now ms) .turn = sysSleepMs u now ms :=
      if_neg fun hc => hc.2 (by rw [hwake]; exact Nat.lt_add_of_pos_right (Nat.succ_pos n))
    have hpass : step u (sysSleepMs u now ms) (.pass (stop - now)) =
        { sysSleepMs u now ms with now := stop } := by
      have hsum : now + (stop - now) = stop := by omega
      unfold step sysSleepMs
      dsimp only
      rw [hsum]
    refine ⟨.pass (stop - now) :: (List.replicate (n + 1) .irq0 ++ [.turn]), ?_⟩
    rw [run, List.foldl_cons, hturn, List.foldl_cons, hpass, List.foldl_append,
      irq0s (by dsimp only; rw [hstop]; exact Nat.le_refl _), Nat.max_eq_right (by omega)]
    exact congrArg Sleeper.returned (if_pos ⟨rfl, by
      rw [hwake]
      exact Nat.lt_irrefl _⟩)

/-- The time of the edge that ends the sleep, unless the sum wraps around. -/
theorem wakeTick_mul (hms : ms.toNat < 2 ^ 32 - 9) (ticks : Nat) :
    wakeTick ticks ms * period u =
      period u * ticks + (ms.toNat * u + (10 - ms.toNat % 10) % 10 * u) := by
  have hround : 10 * ((ms.toNat + 9) % 2 ^ 32 / 10) = ms.toNat + (10 - ms.toNat % 10) % 10 := by
    omega
  rw [wakeTick_eq, ← Nat.add_mul, ← hround]
  unfold period
  ring

/-- The call sleeps long enough in every run exactly for no time at all, or if the sum that rounds
up does not wrap and no more of the period is over than rounding up adds. -/
theorem sleep_long_enough_iff (hu : 0 < u) (now : Nat) (ms : BitVec 32) :
    (∀ events t, (run u now ms events).returned = some t → now + ms.toNat * u ≤ t) ↔
      ms = 0#32 ∨ ms.toNat < 2 ^ 32 - 9 ∧
        now % period u ≤ (10 - ms.toNat % 10) % 10 * u := by
  have hphase := Nat.div_add_mod now (period u)
  constructor
  · intro h
    refine or_iff_not_imp_left.mpr fun hzero => ?_
    have hpos : 0 < ms.toNat * u :=
      Nat.mul_pos (Nat.pos_of_ne_zero fun hc => hzero (BitVec.eq_of_toNat_eq hc)) hu
    obtain ⟨events, hrun⟩ := exists_run hu now ms
    have hlong := h events _ hrun
    by_cases hms : ms.toNat < 2 ^ 32 - 9
    · rw [wakeTick_mul hms] at hlong
      exact ⟨hms, by omega⟩
    · have hnone : (ms.toNat + 9) % 2 ^ 32 / 10 = 0 := by
        have := ms.isLt
        omega
      rw [wakeTick_eq, hnone, Nat.add_zero, Nat.mul_comm _ (period u)] at hlong
      omega
  · intro h events t ht
    obtain ⟨hwake, hafter⟩ := (timed_run u now ms events).returned t ht
    rcases h with rfl | ⟨hms, hlate⟩
    · simpa using hafter
    · have hedge := (Nat.mul_le_mul_right (period u) hwake).trans (Nat.div_mul_le_self _ _)
      rw [wakeTick_mul hms] at hedge
      omega

end

/-- A sleep of 15 ms that is called 5 ms into a period is over at the second tick. -/
theorem sleep_long_enough_iff_fifteen :
    (run 1 5 15#32 [.pass 5, .irq0, .pass 10, .irq0, .turn]).returned = some 20 ∧
      5 + (15#32).toNat * 1 ≤ 20 := by
  have hret : (run 1 5 15#32 [.pass 5, .irq0, .pass 10, .irq0, .turn]).returned = some 20 := by
    decide
  exact ⟨hret, (sleep_long_enough_iff Nat.one_pos 5 15#32).mpr (.inr ⟨by decide, by decide⟩) _ _
    hret⟩

/-- Called 9 ms into a period, a sleep of 10 ms is over after 1 ms. -/
theorem sleep_too_short :
    (run 1 9 10#32 [.pass 1, .irq0, .turn]).returned = some 10 ∧ ¬9 + (10#32).toNat * 1 ≤ 10 := by
  decide

end Aeryk.Sleep
