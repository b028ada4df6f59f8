import Mathlib.Data.List.Basic
import Mathlib.Data.List.Nodup
import Mathlib.Logic.Function.Basic

/-!
# Rings

A circular doubly linked list with a distinguished node.  The nodes are met by following `next`
once around (`Path`), and `prev` undoes `next`.  Programs go around such a ring by counting its
nodes first (`lapCount`) and then taking that many steps (`walk`).
-/

namespace Aeryk.Lib

open List

variable {α : Type*}

/-- Following `next` from `a` meets the nodes `l` and arrives at `b`. -/
def Path (next : α → α) : α → List α → α → Prop
  | a, [], b => a = b
  | a, c :: l, b => a = c ∧ Path next (next c) l b

section Path

variable {next next' : α → α} {a b c : α} {l l₁ l₂ : List α}

@[simp] theorem path_nil : Path next a [] b ↔ a = b := Iff.rfl

@[simp] theorem path_cons : Path next a (c :: l) b ↔ a = c ∧ Path next (next c) l b := Iff.rfl

theorem path_append :
    Path next a (l₁ ++ l₂) b ↔ ∃ c, Path next a l₁ c ∧ Path next c l₂ b := by
  induction l₁ generalizing a with
  | nil => simp
  | cons d l₁ ih => simp [ih, and_assoc]

theorem Path.congr (h : Path next a l b) (hn : ∀ c ∈ l, next' c = next c) :
    Path next' a l b := by
  induction l generalizing a with
  | nil => exact h
  | cons c l ih =>
    refine ⟨h.1, ?_⟩
    rw [hn c mem_cons_self]
    exact ih h.2 fun d hd => hn d (mem_cons_of_mem _ hd)

/-- A step from a node of the path leads to a node of the path or to its end. -/
theorem Path.next_mem (h : Path next a l b) (hc : c ∈ l) : next c ∈ l ∨ next c = b := by
  obtain ⟨l₁, l₂, rfl⟩ := append_of_mem hc
  obtain ⟨d, -, rfl, h2⟩ := path_append.mp h
  cases l₂ with
  | nil => exact .inr h2
  | cons e l₂ => exact .inl (by simp [h2.1])

/-- The last node of a path steps to its end. -/
theorem Path.snoc (h : Path next a (l ++ [c]) b) : Path next a l c ∧ next c = b := by
  obtain ⟨d, h1, rfl, h2⟩ := path_append.mp h
  exact ⟨h1, h2⟩

/-- A path around can start at each of its nodes. -/
theorem Path.rotate (h : Path next a (l₁ ++ c :: l₂) a) : Path next c (c :: l₂ ++ l₁) c := by
  obtain ⟨d, h1, rfl, h2⟩ := path_append.mp h
  exact path_append.mpr ⟨a, ⟨rfl, h2⟩, h1⟩

/-- The last node of a path is made to step elsewhere. -/
theorem Path.redirect (h : Path next a (l ++ [c]) b) (hn : ∀ d ∈ l, next' d = next d) :
    (l ++ [c]).head? = some a ∧ Path next' a (l ++ [c]) (next' c) := by
  refine ⟨?_, path_append.mpr ⟨c, h.snoc.1.congr hn, rfl, rfl⟩⟩
  cases l with
  | nil => exact congrArg some h.1.symm
  | cons d l => exact congrArg some h.1.symm

end Path

/-- The nodes of a ring, from the node `head` on. -/
structure Ring (next prev : α → α) (head : Option α) (l : List α) : Prop where
  head_eq : head = l.head?
  path : ∀ h, head = some h → Path next h l h
  inv : ∀ a ∈ l, prev (next a) = a
  nodup : l.Nodup

section Ring

variable {next prev next' prev' : α → α} {head : Option α} {a b h : α} {l l₁ l₂ : List α}

theorem Ring.congr (hr : Ring next prev head l) (hn : ∀ a ∈ l, next' a = next a)
    (hp : ∀ a ∈ l, prev' a = prev a) : Ring next' prev' head l := by
  refine ⟨hr.head_eq, fun h e => (hr.path h e).congr hn, fun a ha => ?_, hr.nodup⟩
  have hh : head = some (l.head (ne_nil_of_mem ha)) := by
    rw [hr.head_eq, head?_eq_some_head]
  have hmem : next a ∈ l := by
    rcases (hr.path _ hh).next_mem ha with h1 | h1
    · exact h1
    · rw [h1]; exact head_mem _
  rw [hn a ha, hp _ hmem]
  exact hr.inv a ha

theorem Ring.head_of_mem (hr : Ring next prev head l) (ha : a ∈ l) : ∃ h ∈ l, head = some h := by
  refine ⟨l.head (ne_nil_of_mem ha), head_mem _, ?_⟩
  rw [hr.head_eq, head?_eq_some_head]

theorem Ring.next_mem (hr : Ring next prev head l) (ha : a ∈ l) : next a ∈ l := by
  obtain ⟨h, hm, e⟩ := hr.head_of_mem ha
  rcases (hr.path h e).next_mem ha with h1 | h1
  · exact h1
  · rwa [h1]

/-- The node before the head is the last one. -/
theorem Ring.prev_head (hr : Ring next prev (some h) (l ++ [a])) : prev h = a ∧ next a = h := by
  obtain ⟨-, h2⟩ := (hr.path h rfl).snoc
  exact ⟨by rw [← h2]; exact hr.inv a (by simp), h2⟩

theorem Ring.prev_mem (hr : Ring next prev (some h) l) : prev h ∈ l := by
  rcases eq_nil_or_concat l with rfl | ⟨l', b, rfl⟩
  · cases hr.head_eq
  · rw [concat_eq_append] at *
    rw [hr.prev_head.1]
    simp

/-- Every node is the successor of the node before it. -/
theorem Ring.next_prev (hr : Ring next prev head l) (ha : a ∈ l) :
    prev a ∈ l ∧ next (prev a) = a := by
  -- it is enough to find the node that steps to `a`
  suffices h : ∃ b ∈ l, next b = a by
    obtain ⟨b, hb, rfl⟩ := h
    rw [hr.inv b hb]
    exact ⟨hb, rfl⟩
  obtain ⟨h, -, rfl⟩ := hr.head_of_mem ha
  obtain ⟨l₁, l₂, rfl⟩ := append_of_mem ha
  rcases eq_nil_or_concat l₁ with rfl | ⟨l', b, rfl⟩
  · have hh : h = a := by simpa using hr.head_eq
    subst hh
    refine ⟨prev h, hr.prev_mem, ?_⟩
    rcases eq_nil_or_concat l₂ with rfl | ⟨l', b, rfl⟩
    · obtain ⟨h1, h2⟩ := Ring.prev_head (l := []) hr
      rw [h1, h2]
    · rw [concat_eq_append] at hr
      obtain ⟨h1, h2⟩ := Ring.prev_head (l := h :: l') hr
      rw [h1, h2]
  · rw [concat_eq_append] at *
    obtain ⟨c, h1, h2⟩ := path_append.mp (hr.path h rfl)
    obtain ⟨-, h3⟩ := h1.snoc
    exact ⟨b, by simp, h3.trans h2.1⟩

/-- A ring of one node. -/
theorem ring_singleton (hn : next a = a) (hp : prev a = a) : Ring next prev (some a) [a] where
  head_eq := rfl
  path h e := by cases e; exact ⟨rfl, hn⟩
  inv b hb := by rw [mem_singleton.mp hb, hn, hp]
  nodup := nodup_singleton a

/-- A new node goes between the last node and the head. -/
theorem Ring.insert (hr : Ring next prev (some h) l) (ha : a ∉ l) (hna : next' a = h)
    (hnl : next' (prev h) = a) (hpa : prev' a = prev h) (hph : prev' h = a)
    (hn : ∀ b ∈ l, b ≠ prev h → next' b = next b) (hp : ∀ b ∈ l, b ≠ h → prev' b = prev b) :
    Ring next' prev' (some h) (l ++ [a]) := by
  rcases eq_nil_or_concat l with rfl | ⟨l', b, rfl⟩
  · cases hr.head_eq
  rw [concat_eq_append] at *
  obtain ⟨hpb, hnb⟩ := hr.prev_head
  obtain ⟨hb, hl'⟩ : b ∉ l' ∧ l'.Nodup := by
    have := hr.nodup
    rw [nodup_append] at this
    exact ⟨fun hm => this.2.2 b hm b (by simp) rfl, this.1⟩
  rw [hpb] at hnl hpa hn
  refine ⟨?_, fun h' e => ?_, fun c hc => ?_, ?_⟩
  · have := hr.head_eq
    simp [head?_append] at this ⊢
    exact this
  · cases e
    obtain ⟨h1, -⟩ := (hr.path h rfl).snoc
    refine path_append.mpr ⟨a, path_append.mpr ⟨b, ?_, rfl, hnl⟩, rfl, hna⟩
    exact h1.congr fun c hc => hn c (by simp [hc]) fun e => hb (e ▸ hc)
  · rcases mem_append.mp hc with hc | hc
    · by_cases hcb : c = b
      · subst hcb; rw [hnl, hpa]
      · have hne : next c ≠ h := fun e => hcb (by
          rw [← hr.inv c hc, e, hpb])
        rw [hn c hc hcb, hp _ (hr.next_mem hc) hne, hr.inv c hc]
    · rw [mem_singleton.mp hc, hna, hph]
  · rw [nodup_append]
    refine ⟨hr.nodup, nodup_singleton a, fun c hc d hd => ?_⟩
    rw [mem_singleton.mp hd]
    exact fun e => ha (e ▸ hc)

variable [DecidableEq α]

/-- A node is unlinked, and the head moves on if it was the node. -/
theorem Ring.remove (hr : Ring next prev (some h) (l₁ ++ a :: l₂))
    (hn : ∀ b ∈ l₁ ++ l₂, next' b = if b = prev a then next a else next b)
    (hp : ∀ b ∈ l₁ ++ l₂, prev' b = if b = next a then prev a else prev b) :
    Ring next' prev' (if h = a then (if next a ≠ a then some (next a) else none) else some h)
      (l₁ ++ l₂) := by
  have hnd := hr.nodup
  have ha : a ∉ l₁ ++ l₂ := by grind
  have hinv : ∀ b ∈ l₁ ++ l₂, prev' (next' b) = b := by
    intro b hb
    have hib := hr.inv b
    have hia := hr.inv a
    have hnb := hr.next_mem (a := b)
    have hna := hr.next_mem (a := a)
    grind
  obtain ⟨c, h1, rfl, h2⟩ := path_append.mp (hr.path h rfl)
  rcases eq_nil_or_concat l₁ with rfl | ⟨l', x, rfl⟩
  · obtain rfl : h = c := h1
    rw [if_pos rfl, nil_append] at *
    rcases eq_nil_or_concat l₂ with rfl | ⟨l', x, rfl⟩
    · rw [if_neg (not_not.mpr (path_nil.mp h2))]
      exact ⟨rfl, fun _ e => (by cases e), hinv, nodup_nil⟩
    · rw [concat_eq_append] at *
      have hx : prev h = x := by rw [← h2.snoc.2, hr.inv x (by simp)]
      have hkeep : ∀ d ∈ l', next' d = next d := by grind
      obtain ⟨hfirst, hpath⟩ := h2.redirect hkeep
      have hne : next h ≠ h := fun e => ha (mem_of_head? (e ▸ hfirst))
      rw [hn x (by simp), if_pos hx.symm] at hpath
      rw [if_pos hne]
      exact ⟨hfirst.symm, fun h' e => Option.some.inj e ▸ hpath, hinv, (nodup_cons.mp hnd).2⟩
  · rw [concat_eq_append] at *
    have hx : prev c = x := by rw [← h1.snoc.2, hr.inv x (by simp)]
    have hkeep : ∀ d ∈ l', next' d = next d := by grind
    obtain ⟨hfirst, hpath⟩ := h1.redirect hkeep
    have hne : h ≠ c := fun e => ha (mem_append_left _ (mem_of_head? (e ▸ hfirst)))
    rw [hn x (by simp), if_pos hx.symm] at hpath
    rw [if_neg hne]
    refine ⟨?_, fun h' e => ?_, hinv, by grind⟩
    · rw [head?_append, hfirst]
      rfl
    · obtain rfl := Option.some.inj e
      exact path_append.mpr ⟨next c, hpath, h2.congr (by grind)⟩

end Ring

/-! ## Going around -/

/-- The number of steps, at most `fuel`, from `p` back to `node`, counting on from `count`. -/
def lapCount [DecidableEq α] (next : α → α) (node : α) : Nat → Nat → α → Nat
  | 0, count, _ => count
  | fuel + 1, count, p =>
    if next p = node then count + 1 else lapCount next node fuel (count + 1) (next p)

def walk (next : α → α) : Nat → α → List α
  | 0, _ => []
  | n + 1, a => a :: walk next n (next a)

section Lap

variable {next prev : α → α} {a b h : α} {l : List α}

theorem Path.walk_eq (hp : Path next a l b) : walk next l.length a = l := by
  induction l generalizing a with
  | nil => rfl
  | cons c l ih =>
    obtain ⟨rfl, hp⟩ := hp
    simp [walk, ih hp]

theorem Ring.walk_eq (hr : Ring next prev (some h) l) : walk next l.length h = l :=
  (hr.path h rfl).walk_eq

theorem Path.lapCount_eq [DecidableEq α] {fuel count : Nat} (hp : Path next a l h) (hl : l ≠ [])
    (hh : h ∉ l.tail) (hf : l.length ≤ fuel) :
    lapCount next h fuel count a = count + l.length := by
  induction l generalizing a fuel count with
  | nil => exact absurd rfl hl
  | cons c l ih =>
    obtain ⟨rfl, hp⟩ := hp
    obtain ⟨fuel, rfl⟩ : ∃ f, fuel = f + 1 := ⟨fuel - 1, by simp at hf; omega⟩
    cases l with
    | nil => simp [lapCount, show next a = h from hp]
    | cons d l =>
      have hne : next a ≠ h := fun e => hh (by simp [← e, hp.1])
      rw [lapCount, if_neg hne, ih hp (cons_ne_nil _ _)
        (fun hm => hh (by simp at hm ⊢; exact .inr hm)) (by simp at hf ⊢; omega)]
      simp only [length_cons]
      omega

/-- The counting loop counts the nodes of the ring. -/
theorem Ring.lapCount_eq [DecidableEq α] {fuel : Nat} (hr : Ring next prev (some h) l)
    (hf : l.length ≤ fuel) : lapCount next h fuel 0 h = l.length := by
  have hl : l ≠ [] := fun e => by
    have := hr.head_eq
    rw [e] at this
    cases this
  refine ((hr.path h rfl).lapCount_eq hl ?_ hf).trans (Nat.zero_add _)
  cases l with
  | nil => exact absurd rfl hl
  | cons c l =>
    have hc : h = c := by simpa using hr.head_eq
    rw [hc]
    exact (nodup_cons.mp hr.nodup).1

end Lap

end Aeryk.Lib
