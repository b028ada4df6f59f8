import Aeryk.Drivers.Keyboard
import Aeryk.Lib.Guarded

/-!
# Wake-ups of keyboard readers

A completed line wakes one reader, but a line is several bytes, and a reader that asked for fewer
leaves the rest in the ring.  Nobody is woken for what is left.

While somebody is parked and the ring is not empty, a reader that was taken off the queue has to be
on its way: it has not run since it was woken (`yetToRun`), or its call has not returned since
(`attending`).  `Watched A` has both readings.  In either, one kind of step alone breaks the
property (`FirstByte`, `ReturnsDry`).
-/

namespace Aeryk.Drivers

open List Function Lib

/-- Taken off the wait queue, and not run since. -/
def Reader.yetToRun {κ α : Type} : Reader κ α → Prop
  | .woken _ _ => True
  | _ => False

/-- Taken off the wait queue, and still in the call. -/
def Reader.attending {κ α : Type} : Reader κ α → Prop
  | .woken _ _ => True
  | .running _ _ popped => popped = true
  | _ => False

/-- Nobody is parked while the ring holds something, unless some reader is as `A` says. -/
def Keyboard.Watched (A : Reader Int (BitVec 8) → Prop) (s : Keyboard) : Prop :=
  s.port.waitq ≠ [] → s.port.ring.items = [] ∨ ∃ pid, A (s.port.readers pid)

/-- A reader that was woken takes its first byte only if that is all there is, nobody else is
parked, or another reader that was woken has yet to run. -/
def Keyboard.FirstByte (s : Keyboard) (event : KeyEvent) : Prop :=
  ∀ pid, event = .turn pid → (s.port.readers pid).yetToRun →
    s.port.ring.items.length ≤ 1 ∨ s.port.waitq = [] ∨
      ∃ q, q ≠ pid ∧ (s.port.readers q).yetToRun

/-- What a call that returns in its next turn leaves in the ring. -/
def leaves (items : List (BitVec 8)) (count : Int) (got : List (BitVec 8)) :
    Option (List (BitVec 8)) :=
  if (got.length : Int) < count then
    match items with
    | c :: rest => if c = newline then some rest else none
    | [] => none
  else some items

/-- What a call leaves in the ring, if its process was woken in it and it returns in its next turn.
-/
def Keyboard.leftBy (s : Keyboard) (pid : Pid) : Option (List (BitVec 8)) :=
  match s.port.readers pid with
  | .woken count got => leaves s.port.ring.items count got
  | .running count got true => leaves s.port.ring.items count got
  | _ => none

/-- A call in which the reader was woken returns only if it leaves nothing, nobody is parked, or
another such call has yet to return. -/
def Keyboard.ReturnsDry (s : Keyboard) (event : KeyEvent) : Prop :=
  ∀ pid, event = .turn pid → ∀ rest, s.leftBy pid = some rest →
    rest = [] ∨ s.port.waitq = [] ∨ ∃ q, q ≠ pid ∧ (s.port.readers q).attending

/-! ## The queue -/

/-- The processes on the wait queue are parked, each once, before their call has what it asked for.
-/
structure Keyboard.Queued (s : Keyboard) : Prop where
  parked : ∀ pid ∈ s.port.waitq, ∃ count got, s.port.readers pid = .parked count got
  nodup : s.port.waitq.Nodup
  short : ∀ pid count got, s.port.readers pid = .parked count got ∨
    s.port.readers pid = .woken count got → (got.length : Int) < count

/-- The outcomes of a turn. -/
theorem keyboardRead_cases (p : Port Int (BitVec 8) kbdBufSize) (pid : Pid) (count : Int)
    (got : List (BitVec 8)) (popped : Bool) :
    (¬(got.length : Int) < count ∧ keyboardRead p pid count got popped = p.finish pid got) ∨
    ((got.length : Int) < count ∧ p.ring.items = [] ∧
      keyboardRead p pid count got popped = p.park pid count got) ∨
    ∃ c ring, (got.length : Int) < count ∧ p.ring.items = c :: ring.items ∧
      (c ≠ newline ∧
        keyboardRead p pid count got popped = p.take pid count got popped c ring ∨
      c = newline ∧ keyboardRead p pid count got popped =
        (p.take pid count got popped c ring).finish pid (got ++ [c])) := by
  unfold keyboardRead
  by_cases hmore : (got.length : Int) < count
  · rw [if_pos hmore]
    cases hpop : p.ring.pop with
    | none => exact .inr (.inl ⟨hmore, Fifo.pop_eq_none_iff.mp hpop, rfl⟩)
    | some taken =>
      obtain ⟨c, ring⟩ := taken
      refine .inr (.inr ⟨c, ring, hmore, Fifo.items_of_pop hpop, ?_⟩)
      dsimp only
      by_cases hc : c = newline
      · rw [if_pos hc]
        exact .inr ⟨hc, rfl⟩
      · rw [if_neg hc]
        exact .inl ⟨hc, rfl⟩
  · rw [if_neg hmore]
    exact .inl ⟨hmore, rfl⟩

/-- A turn of a process that may run: it stays off the queue, or it is parked before an empty ring.
-/
theorem keyboardRead_readers (p : Port Int (BitVec 8) kbdBufSize) (pid : Pid) (count : Int)
    (got : List (BitVec 8)) (popped : Bool) :
    ((keyboardRead p pid count got popped).waitq = p.waitq ∧ ∃ r,
      (keyboardRead p pid count got popped).readers = update p.readers pid r ∧
      (r = .idle ∨ ∃ got', r = .running count got' popped)) ∨
    ((got.length : Int) < count ∧ p.ring.items = [] ∧
      keyboardRead p pid count got popped = p.park pid count got) := by
  rcases keyboardRead_cases p pid count got popped with
    ⟨-, h⟩ | ⟨hmore, hnone, h⟩ | ⟨c, ring, -, -, ⟨-, h⟩ | ⟨-, h⟩⟩
  · exact .inl ⟨by rw [h]; rfl, .idle, by rw [h]; rfl, .inl rfl⟩
  · exact .inr ⟨hmore, hnone, h⟩
  · exact .inl ⟨by rw [h]; rfl, _, by rw [h]; rfl, .inr ⟨_, rfl⟩⟩
  · refine .inl ⟨by rw [h]; rfl, .idle, ?_, .inl rfl⟩
    rw [h]
    simp only [Port.finish, Port.take, update_idem]

def Runs (r : Reader Int (BitVec 8)) (count : Int) (got : List (BitVec 8)) (popped : Bool) : Prop :=
  r = .running count got popped ∨ r = .woken count got ∧ popped = true

/-- A turn of a process that may not run does nothing. -/
theorem turn_cases (s : Keyboard) (pid : Pid) :
    (s.step (.turn pid) = s ∧ (s.port.readers pid = .idle ∨
      ∃ count got, s.port.readers pid = .parked count got)) ∨
    ∃ count got popped, Runs (s.port.readers pid) count got popped ∧
      s.step (.turn pid) = { s with port := keyboardRead s.port pid count got popped } := by
  simp only [Keyboard.step, Port.turn]
  cases hr : s.port.readers pid with
  | idle => exact .inl ⟨rfl, .inl rfl⟩
  | parked count got => exact .inl ⟨rfl, .inr ⟨count, got, rfl⟩⟩
  | running count got popped => exact .inr ⟨count, got, popped, .inl rfl, rfl⟩
  | woken count got => exact .inr ⟨count, got, true, .inr ⟨rfl, rfl⟩, rfl⟩

section

variable {s : Keyboard}

/-- A process that is not on the queue changes its place. -/
theorem Keyboard.Queued.update (h : s.Queued) {p : Port Int (BitVec 8) kbdBufSize} {pid : Pid}
    {r : Reader Int (BitVec 8)} (hpid : pid ∉ s.port.waitq) (hwaitq : p.waitq = s.port.waitq)
    (hreaders : p.readers = update s.port.readers pid r)
    (hr : r = .idle ∨ ∃ count got popped, r = .running count got popped) :
    Keyboard.Queued { s with port := p } := by
  constructor
  · intro q hq
    dsimp only at hq ⊢
    rw [hwaitq] at hq
    have hne : q ≠ pid := fun he => hpid (he ▸ hq)
    rw [hreaders, update_of_ne hne]
    exact h.parked q hq
  · dsimp only
    rw [hwaitq]
    exact h.nodup
  · intro q count got hq
    dsimp only at hq
    rw [hreaders] at hq
    by_cases he : q = pid
    · subst he
      rw [update_self] at hq
      rcases hr with rfl | ⟨_, _, _, rfl⟩ <;> simp at hq
    · rw [update_of_ne he] at hq
      exact h.short q count got hq

theorem Keyboard.Queued.not_mem (h : s.Queued) {pid : Pid}
    (hr : ∀ count got, s.port.readers pid ≠ .parked count got) : pid ∉ s.port.waitq := by
  intro hmem
  obtain ⟨count, got, hp⟩ := h.parked pid hmem
  exact hr count got hp

theorem Runs.not_parked {r : Reader Int (BitVec 8)} {count : Int} {got : List (BitVec 8)}
    {popped : Bool} (h : Runs r count got popped) (count' : Int) (got' : List (BitVec 8)) :
    r ≠ .parked count' got' := by
  rcases h with rfl | ⟨rfl, -⟩ <;> simp

theorem Keyboard.queued_init : Keyboard.init.Queued :=
  ⟨fun _ h => (not_mem_nil h).elim, nodup_nil, fun _ _ _ h => by
    rcases h with h | h <;> cases h⟩

theorem Keyboard.Queued.wake (h : s.Queued) (ring : Fifo (BitVec 8) kbdBufSize)
    {kbd : Keyboard} (hkbd : kbd.port = Port.wake { s.port with ring }) : kbd.Queued := by
  cases hq : s.port.waitq with
  | nil =>
    have hport : kbd.port = { s.port with ring } := by rw [hkbd, Port.wake]; simp only [hq]
    exact ⟨by rw [hport]; exact h.parked, by rw [hport]; exact h.nodup,
      by rw [hport]; exact h.short⟩
  | cons w waitq =>
    have hport : kbd.port = { s.port with
        ring
        waitq
        readers := Function.update s.port.readers w (s.port.readers w).ready } := by
      rw [hkbd, Port.wake]
      simp only [hq]
    obtain ⟨hw, hnodup⟩ := nodup_cons.mp (hq ▸ h.nodup)
    obtain ⟨count, got, hparked⟩ := h.parked w (by rw [hq]; exact mem_cons_self)
    refine ⟨?_, by rw [hport]; exact hnodup, ?_⟩
    · intro q hmem
      rw [hport] at hmem ⊢
      have hne : q ≠ w := fun he => hw (he ▸ hmem)
      dsimp only
      rw [update_of_ne hne]
      exact h.parked q (by rw [hq]; exact mem_cons_of_mem _ hmem)
    · intro q count' got' hr
      rw [hport] at hr
      dsimp only at hr
      by_cases he : q = w
      · subst he
        rw [update_self, hparked] at hr
        apply h.short q count' got'
        rw [hparked]
        rcases hr with hr | hr
        · cases hr
        · injection hr with h1 h2
          exact .inl (by rw [h1, h2])
      · rw [update_of_ne he] at hr
        exact h.short q count' got' hr

theorem Keyboard.Queued.park (h : s.Queued) {pid : Pid} {count : Int} {got : List (BitVec 8)}
    (hpid : pid ∉ s.port.waitq) (hmore : (got.length : Int) < count) :
    Keyboard.Queued { s with port := s.port.park pid count got } := by
  constructor
  · intro q hq
    simp only [Port.park, mem_append, mem_singleton] at hq ⊢
    by_cases he : q = pid
    · subst he
      exact ⟨count, got, update_self ..⟩
    · rw [update_of_ne he]
      exact h.parked q (hq.resolve_right he)
  · exact nodup_append.mpr ⟨h.nodup, nodup_singleton pid,
      fun a ha b hb he => hpid (by rwa [← mem_singleton.mp hb, ← he])⟩
  · intro q count' got' hr
    simp only [Port.park] at hr
    by_cases he : q = pid
    · subst he
      rw [update_self] at hr
      rcases hr with hr | hr
      · injection hr with h1 h2
        rwa [← h1, ← h2]
      · cases hr
    · rw [update_of_ne he] at hr
      exact h.short q count' got' hr

theorem Keyboard.Queued.step (h : s.Queued) (event : KeyEvent) : (s.step event).Queued := by
  cases event with
  | scancode data =>
    rcases port_onIrq1 s data with hport | ⟨ring, hport⟩
    · exact ⟨by rw [Keyboard.step, hport]; exact h.parked,
        by rw [Keyboard.step, hport]; exact h.nodup, by rw [Keyboard.step, hport]; exact h.short⟩
    · exact h.wake ring hport
  | call pid count =>
    simp only [Keyboard.step, Port.begin]
    split
    next hidle =>
      exact h.update (h.not_mem fun _ _ => by simp [hidle]) rfl rfl
        (.inr ⟨count, [], false, rfl⟩)
    · exact h
  | turn pid =>
    rcases turn_cases s pid with ⟨hsame, -⟩ | ⟨count, got, popped, hr, hstep⟩
    · rw [hsame]
      exact h
    · have hpid := h.not_mem hr.not_parked
      rw [hstep]
      rcases keyboardRead_readers s.port pid count got popped with
        ⟨hwaitq, r, hreaders, hplace⟩ | ⟨hmore, -, hpark⟩
      · refine h.update hpid hwaitq hreaders (hplace.imp_right ?_)
        rintro ⟨got', hgot⟩
        exact ⟨count, got', popped, hgot⟩
      · rw [hpark]
        exact h.park hpid hmore

/-! ## What a step can break -/

variable {A : Reader Int (BitVec 8) → Prop}

theorem exists_update {pid : Pid} {r : Reader Int (BitVec 8)}
    {readers : Pid → Reader Int (BitVec 8)} :
    (∃ q, A (update readers pid r q)) ↔ A r ∨ ∃ q, q ≠ pid ∧ A (readers q) := by
  constructor
  · rintro ⟨q, hq⟩
    by_cases he : q = pid
    · subst he
      rw [update_self] at hq
      exact .inl hq
    · rw [update_of_ne he] at hq
      exact .inr ⟨q, he, hq⟩
  · rintro (hr | ⟨q, he, hq⟩)
    · exact ⟨pid, by rwa [update_self]⟩
    · exact ⟨q, by rwa [update_of_ne he]⟩

/-- A completed line wakes a reader if there is one. -/
theorem Keyboard.Watched.scancode (hA : ∀ count got, A (.woken count got)) (h : s.Queued)
    (hs : s.Watched A) (data : BitVec 8) : (s.onIrq1 data).Watched A := by
  rcases port_onIrq1 s data with hport | ⟨ring, hport⟩
  · rw [Keyboard.Watched, hport]
    exact hs
  · rw [Keyboard.Watched, hport, Port.wake]
    cases hq : s.port.waitq with
    | nil =>
      intro hne
      simp [hq] at hne
    | cons w waitq =>
      intro _
      obtain ⟨count, got, hparked⟩ := h.parked w (by rw [hq]; exact mem_cons_self)
      refine .inr (exists_update.mpr (.inl ?_))
      rw [hparked]
      exact hA count got

/-- A call begins. -/
theorem Keyboard.Watched.call (hA : ¬A .idle) (hs : s.Watched A) (pid : Pid) (count : Int) :
    (s.step (.call pid count)).Watched A := by
  simp only [Keyboard.step, Port.begin]
  split
  next hidle =>
    intro hne
    refine (hs hne).imp_right ?_
    rintro ⟨q, hq⟩
    refine exists_update.mpr (.inr ⟨q, ?_, hq⟩)
    rintro rfl
    exact hA (hidle ▸ hq)
  · exact hs

section

variable {pid : Pid} {count : Int} {got : List (BitVec 8)} {popped : Bool} {c : BitVec 8}
  {ring : Fifo (BitVec 8) kbdBufSize}

theorem watched_finish : Keyboard.Watched A { s with port := s.port.finish pid got } ↔
    (s.port.waitq ≠ [] →
      s.port.ring.items = [] ∨ A .idle ∨ ∃ q, q ≠ pid ∧ A (s.port.readers q)) := by
  rw [← exists_update]
  exact Iff.rfl

theorem watched_take :
    Keyboard.Watched A { s with port := s.port.take pid count got popped c ring } ↔
    (s.port.waitq ≠ [] → ring.items = [] ∨ A (.running count (got ++ [c]) popped) ∨
      ∃ q, q ≠ pid ∧ A (s.port.readers q)) := by
  rw [← exists_update]
  exact Iff.rfl

theorem watched_return :
    Keyboard.Watched A { s with
      port := (s.port.take pid count got popped c ring).finish pid (got ++ [c]) } ↔
    (s.port.waitq ≠ [] → ring.items = [] ∨ A .idle ∨
      ∃ q, q ≠ pid ∧ A (s.port.readers q)) := by
  have hreaders : ((s.port.take pid count got popped c ring).finish pid (got ++ [c])).readers =
      update s.port.readers pid .idle := by
    simp only [Port.finish, Port.take, update_idem]
  rw [← exists_update, ← hreaders]
  exact Iff.rfl

/-- A process that is not one of those meant takes a turn. -/
theorem Keyboard.Watched.others (hs : s.Watched A) (hA : ¬A (s.port.readers pid)) :
    Keyboard.Watched A { s with port := keyboardRead s.port pid count got popped } := by
  have hold : s.port.waitq ≠ [] →
      s.port.ring.items = [] ∨ ∃ q, q ≠ pid ∧ A (s.port.readers q) := fun hne =>
    (hs hne).imp_right fun ⟨q, hq⟩ => ⟨q, fun he => hA (he ▸ hq), hq⟩
  rcases keyboardRead_cases s.port pid count got popped with
    ⟨-, h⟩ | ⟨-, hnone, h⟩ | ⟨c, ring, -, hitems, ⟨-, h⟩ | ⟨-, h⟩⟩
  · rw [h, watched_finish]
    exact fun hne => (hold hne).imp_right .inr
  · rw [h]
    exact fun _ => .inl hnone
  · rw [h, watched_take]
    exact fun hne => .inr (.inr ((hold hne).resolve_left (by simp [hitems])))
  · rw [h, watched_return]
    exact fun hne => .inr (.inr ((hold hne).resolve_left (by simp [hitems])))

/-- The first turn of a reader that was woken breaks the strict reading, unless its condition
holds. -/
theorem watched_firstByte (h : s.Queued) (hr : s.port.readers pid = .woken count got) :
    Keyboard.Watched Reader.yetToRun { s with port := keyboardRead s.port pid count got true } ↔
      s.FirstByte (.turn pid) := by
  have hmore := h.short pid count got (.inr hr)
  have hcond : s.FirstByte (.turn pid) ↔ s.port.ring.items.length ≤ 1 ∨ s.port.waitq = [] ∨
      ∃ q, q ≠ pid ∧ (s.port.readers q).yetToRun := by
    constructor
    · intro hc
      exact hc pid rfl (by rw [hr]; trivial)
    · intro hc q he _
      injection he with he
      exact he ▸ hc
  have hone (c : BitVec 8) (rest : List (BitVec 8)) : (c :: rest).length ≤ 1 ↔ rest = [] := by simp
  rw [hcond]
  rcases keyboardRead_cases s.port pid count got true with
    ⟨hless, -⟩ | ⟨-, hnone, hstep⟩ | ⟨c, ring, -, hitems, ⟨-, hstep⟩ | ⟨-, hstep⟩⟩
  · exact absurd hmore hless
  · rw [hstep]
    exact iff_of_true (fun _ => .inl hnone) (.inl (by simp [hnone]))
  · rw [hstep, watched_take, hitems, hone]
    simp only [Reader.yetToRun, false_or]
    tauto
  · rw [hstep, watched_return, hitems, hone]
    simp only [Reader.yetToRun, false_or]
    tauto

/-- A turn in which a call returns breaks the weak reading, unless its condition holds. -/
theorem watched_returnsDry (hr : Runs (s.port.readers pid) count got true) :
    Keyboard.Watched Reader.attending { s with port := keyboardRead s.port pid count got true } ↔
      s.ReturnsDry (.turn pid) := by
  have hleft : s.leftBy pid = leaves s.port.ring.items count got := by
    rcases hr with hr | ⟨hr, -⟩ <;> simp only [Keyboard.leftBy, hr]
  have hcond : s.ReturnsDry (.turn pid) ↔ ∀ rest, leaves s.port.ring.items count got = some rest →
      rest = [] ∨ s.port.waitq = [] ∨ ∃ q, q ≠ pid ∧ (s.port.readers q).attending := by
    rw [← hleft]
    constructor
    · exact fun hc => hc pid rfl
    · intro hc q he
      injection he with he
      exact he ▸ hc
  rw [hcond]
  unfold leaves
  rcases keyboardRead_cases s.port pid count got true with
    ⟨hless, hstep⟩ | ⟨hmore, hnone, hstep⟩ | ⟨c, ring, hmore, hitems, ⟨hc, hstep⟩ | ⟨hc, hstep⟩⟩
  · rw [hstep, watched_finish, if_neg hless]
    simp only [Reader.attending, false_or, Option.some.injEq, forall_eq']
    tauto
  · rw [hstep, if_pos hmore, hnone]
    exact iff_of_true (fun _ => .inl hnone) (by simp)
  · rw [hstep, watched_take, if_pos hmore, hitems]
    simp only [if_neg hc]
    exact iff_of_true (fun _ => .inr (.inl rfl)) (by simp)
  · rw [hstep, watched_return, if_pos hmore, hitems]
    simp only [if_pos hc, Reader.attending, false_or, Option.some.injEq, forall_eq']
    tauto

/-- A step keeps the strict reading exactly under its condition. -/
theorem watched_step_iff (h : s.Queued) (hs : s.Watched Reader.yetToRun) (event : KeyEvent) :
    (s.step event).Watched Reader.yetToRun ↔ s.FirstByte event := by
  cases event with
  | scancode data =>
    exact iff_of_true (hs.scancode (fun _ _ => trivial) h data) (fun _ he => by cases he)
  | call pid count => exact iff_of_true (hs.call id pid count) (fun _ he => by cases he)
  | turn pid =>
    -- a process that was not woken cannot break it, and its condition says nothing
    have hfree (hr : ¬(s.port.readers pid).yetToRun) : s.FirstByte (.turn pid) := by
      intro q he hq
      injection he with he
      exact absurd (he ▸ hq) hr
    rcases turn_cases s pid with ⟨hsame, hr⟩ | ⟨count, got, popped, hr | ⟨hr, rfl⟩, hstep⟩
    · rw [hsame]
      refine iff_of_true hs (hfree ?_)
      rcases hr with hr | ⟨_, _, hr⟩ <;> rw [hr] <;> exact id
    · have hnot : ¬(s.port.readers pid).yetToRun := by rw [hr]; exact id
      rw [hstep]
      exact iff_of_true (hs.others hnot) (hfree hnot)
    · rw [hstep]
      exact watched_firstByte h hr

/-- A step keeps the weak reading exactly under its condition. -/
theorem attended_step_iff (h : s.Queued) (hs : s.Watched Reader.attending) (event : KeyEvent) :
    (s.step event).Watched Reader.attending ↔ s.ReturnsDry event := by
  cases event with
  | scancode data =>
    exact iff_of_true (hs.scancode (fun _ _ => trivial) h data) (fun _ he => by cases he)
  | call pid count => exact iff_of_true (hs.call id pid count) (fun _ he => by cases he)
  | turn pid =>
    have hfree (hr : s.leftBy pid = none) : s.ReturnsDry (.turn pid) := by
      intro q he rest hrest
      injection he with he
      rw [← he, hr] at hrest
      cases hrest
    rcases turn_cases s pid with ⟨hsame, hr⟩ | ⟨count, got, popped, hr, hstep⟩
    · rw [hsame]
      refine iff_of_true hs (hfree ?_)
      rcases hr with hr | ⟨_, _, hr⟩ <;> simp only [Keyboard.leftBy, hr]
    · rw [hstep]
      cases popped with
      | true => exact watched_returnsDry hr
      | false =>
        have hrun : s.port.readers pid = .running count got false :=
          hr.resolve_right fun hw => Bool.false_ne_true hw.2
        have hnot : ¬(s.port.readers pid).attending := by
          rw [hrun]
          exact Bool.false_ne_true
        exact iff_of_true (hs.others hnot) (hfree (by simp only [Keyboard.leftBy, hrun]))

end

end

/-! ## Runs -/

theorem Keyboard.watched_init (A : Reader Int (BitVec 8) → Prop) : Keyboard.init.Watched A :=
  fun h => absurd rfl h

/-- No wake-up is lost in a run if and only if its steps meet the condition: in the strict reading
no woken reader takes its first byte of several while somebody else is parked and no other woken
reader has yet to run, and in the weak reading no call of such a reader returns and leaves bytes
behind while somebody is parked and no other such call is going on. -/
theorem keyboard_wakeup_iff (events : List KeyEvent) :
    ((∀ first, first <+: events →
        (first.foldl Keyboard.step Keyboard.init).Watched Reader.yetToRun) ↔
      Along Keyboard.FirstByte Keyboard.step Keyboard.init events) ∧
    ((∀ first, first <+: events →
        (first.foldl Keyboard.step Keyboard.init).Watched Reader.attending) ↔
      Along Keyboard.ReturnsDry Keyboard.step Keyboard.init events) :=
  ⟨always_iff_along (fun _ event h => h.step event)
      (fun _ event h hs => watched_step_iff h hs event)
      Keyboard.queued_init (Keyboard.watched_init _),
    always_iff_along (fun _ event h => h.step event)
      (fun _ event h hs => attended_step_iff h hs event)
      Keyboard.queued_init (Keyboard.watched_init _)⟩

/-- A process stays out of the driver until it calls. -/
theorem idle_step {s : Keyboard} {pid : Pid} {event : KeyEvent}
    (h : s.port.readers pid = .idle) (hcall : ∀ count, event ≠ .call pid count) :
    (s.step event).port.readers pid = .idle := by
  cases event with
  | scancode data =>
    rcases port_onIrq1 s data with hport | ⟨ring, hport⟩
    · rw [Keyboard.step, hport, h]
    · rw [Keyboard.step, hport, Port.wake]
      split
      · exact h
      next w waitq _ =>
        by_cases he : pid = w
        · subst he
          dsimp only
          rw [update_self, h]
          rfl
        · exact (update_of_ne he ..).trans h
  | call q count =>
    have he : pid ≠ q := fun he => hcall count (he ▸ rfl)
    simp only [Keyboard.step, Port.begin]
    split
    · exact (update_of_ne he ..).trans h
    · exact h
  | turn q =>
    rcases turn_cases s q with ⟨hsame, -⟩ | ⟨count, got, popped, hr, hstep⟩
    · rw [hsame, h]
    · have he : pid ≠ q := by
        rintro rfl
        rcases hr with hr | ⟨hr, -⟩ <;> rw [h] at hr <;> cases hr
      rw [hstep]
      rcases keyboardRead_readers s.port q count got popped with
        ⟨-, r, hreaders, -⟩ | ⟨-, -, hpark⟩
      · dsimp only
        rw [hreaders, update_of_ne he, h]
      · dsimp only
        rw [hpark]
        exact (update_of_ne he ..).trans h

theorem idle_run {pid : Pid} {events : List KeyEvent} {s : Keyboard}
    (h : s.port.readers pid = .idle) (hcall : ∀ count, KeyEvent.call pid count ∉ events) :
    (events.foldl Keyboard.step s).port.readers pid = .idle := by
  induction events generalizing s with
  | nil => exact h
  | cons event events ih =>
    refine ih (idle_step h fun count he => ?_) fun count hmem => ?_
    · exact hcall count (he ▸ mem_cons_self)
    · exact hcall count (mem_cons_of_mem event hmem)

/-- Processes 1 and 2 wait for input, and process 1 asked for one byte only. -/
def shortRead : List KeyEvent :=
  [.call 1 1, .turn 1, .call 2 8, .turn 2, .scancode 0x1E, .scancode 0x30, .scancode 0x1C, .turn 1,
    .turn 1]

/-- Process 1 has returned with its byte.  The rest of the line is in the ring, process 2 is
parked, and nobody was woken for it. -/
theorem short_read_strands_reader :
    let s := shortRead.foldl Keyboard.step Keyboard.init
    s.port.waitq = [2] ∧ s.port.ring.items = [ascii 'b', newline] ∧
      s.port.returned 1 = [[ascii 'a']] ∧ ¬s.Watched Reader.yetToRun ∧
      ¬s.Watched Reader.attending := by
  have hwaitq : (shortRead.foldl Keyboard.step Keyboard.init).port.waitq = [2] := by decide +kernel
  have hitems : (shortRead.foldl Keyboard.step Keyboard.init).port.ring.items =
      [ascii 'b', newline] := by decide +kernel
  have hplaces : ∀ pid, (shortRead.foldl Keyboard.step Keyboard.init).port.readers pid = .idle ∨
      (shortRead.foldl Keyboard.step Keyboard.init).port.readers pid = .parked 8 [] := by
    intro pid
    by_cases h1 : pid = 1
    · subst h1
      exact .inl (by decide +kernel)
    by_cases h2 : pid = 2
    · subst h2
      exact .inr (by decide +kernel)
    · exact .inl (idle_run rfl (by simp [shortRead, h1, h2]))
  have hlost (A : Reader Int (BitVec 8) → Prop) (hidle : ¬A .idle) (hparked : ¬A (.parked 8 [])) :
      ¬(shortRead.foldl Keyboard.step Keyboard.init).Watched A := by
    intro hw
    rw [Keyboard.Watched, hwaitq, hitems] at hw
    rcases hw (by decide) with hempty | ⟨pid, hA⟩
    · cases hempty
    · rcases hplaces pid with hr | hr <;> rw [hr] at hA
      · exact hidle hA
      · exact hparked hA
  exact ⟨hwaitq, hitems, by decide +kernel, hlost _ id id, hlost _ id id⟩

end Aeryk.Drivers
