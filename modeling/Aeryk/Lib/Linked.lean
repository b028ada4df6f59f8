import Mathlib.Data.List.Basic
import Mathlib.Logic.Function.Basic

/-!
# Lists threaded through memory

Which list a chain of links in memory stands for.  The links are given as functions of the node, so
the nodes may be records, page headers or words of a byte array.  `Chain` is a null-terminated
singly linked list, and `Dll` is a doubly linked one that ends in null on both sides.

The lemmas about an update take the new links by what they are on the nodes at hand, so they apply
to any program that writes the right links.
-/

namespace Aeryk.Lib

open List

variable {α : Type*}

/-! ## Singly linked -/

/-- The nodes met from `p` along `next`, up to null, are `l`. -/
def Chain (next : α → Option α) : Option α → List α → Prop
  | p, [] => p = none
  | p, a :: l => p = some a ∧ Chain next (next a) l

section Chain

variable {next next' : α → Option α} {p : Option α} {a : α} {l : List α}

@[simp] theorem chain_nil : Chain next p [] ↔ p = none := Iff.rfl

@[simp] theorem chain_cons : Chain next p (a :: l) ↔ p = some a ∧ Chain next (next a) l := Iff.rfl

theorem Chain.head_eq (h : Chain next p l) : p = l.head? := by
  cases l with
  | nil => exact h
  | cons a l => exact h.1

/-- A chain depends on the links of its own nodes only. -/
theorem Chain.congr (h : Chain next p l) (hn : ∀ a ∈ l, next' a = next a) : Chain next' p l := by
  induction l generalizing p with
  | nil => exact h
  | cons a l ih =>
    refine ⟨h.1, ?_⟩
    rw [hn a mem_cons_self]
    exact ih h.2 fun b hb => hn b (mem_cons_of_mem _ hb)

theorem Chain.append_right {l₁ l₂ : List α} (h : Chain next p (l₁ ++ l₂)) :
    ∃ q, Chain next q l₂ := by
  induction l₁ generalizing p with
  | nil => exact ⟨p, h⟩
  | cons b l₁ ih => exact ih h.2

/-- The links determine the list. -/
theorem Chain.unique {l' : List α} (h : Chain next p l) (h' : Chain next p l') : l = l' := by
  induction l generalizing p l' with
  | nil =>
    cases l' with
    | nil => rfl
    | cons b l' => rw [chain_nil.mp h] at h'; cases h'.1
  | cons a l ih =>
    cases l' with
    | nil => rw [chain_nil.mp h'] at h; cases h.1
    | cons b l' =>
      obtain ⟨rfl, h⟩ := h
      obtain ⟨e, h'⟩ := h'
      cases e
      rw [ih h h']

/-- A chain that ends meets no node twice. -/
theorem Chain.nodup (h : Chain next p l) : l.Nodup := by
  induction l generalizing p with
  | nil => exact nodup_nil
  | cons a l ih =>
    refine nodup_cons.mpr ⟨fun hm => ?_, ih h.2⟩
    -- the rest of the list would be the same after the second meeting as after the first
    obtain ⟨l₁, l₂, rfl⟩ := append_of_mem hm
    obtain ⟨q, -, hq⟩ := h.2.append_right
    have hlen := congrArg length (h.2.unique hq)
    simp only [length_append, length_cons] at hlen
    omega

/-- The last node of a chain is linked to nothing. -/
theorem Chain.next_last (h : Chain next p l) (ha : l.getLast? = some a) : next a = none := by
  induction l generalizing p with
  | nil => cases ha
  | cons b l ih =>
    cases l with
    | nil =>
      cases ha
      exact h.2
    | cons c l => exact ih h.2 ha

/-- A node joins the chain behind its last node. -/
theorem Chain.snoc [DecidableEq α] (h : Chain next p l) (ha : next' a = none)
    (hn : ∀ b ∈ l, next' b = if l.getLast? = some b then some a else next b) :
    Chain next' (p.or (some a)) (l ++ [a]) := by
  induction l generalizing p with
  | nil =>
    rw [chain_nil.mp h]
    exact ⟨rfl, ha⟩
  | cons b l ih =>
    have hb := (nodup_cons.mp h.nodup).1
    obtain ⟨rfl, h⟩ := h
    refine ⟨rfl, ?_⟩
    cases l with
    | nil =>
      have hb' : next' b = some a := (hn b mem_cons_self).trans (if_pos rfl)
      rw [hb']
      exact ⟨rfl, ha⟩
    | cons c l =>
      have hlast : (b :: c :: l).getLast? = (c :: l).getLast? := getLast?_cons_cons
      have hne : (c :: l).getLast? ≠ some b := fun e => hb (mem_of_getLast? e)
      rw [hn b mem_cons_self, hlast, if_neg hne]
      have hor : (next b).or (some a) = next b := by rw [h.1]; rfl
      rw [← hor]
      refine ih h fun d hd => ?_
      rw [hn d (mem_cons_of_mem _ hd), hlast]

/-- The first `n` nodes met from `p` along `next`. -/
def follow (next : α → Option α) : Nat → Option α → List α
  | 0, _ => []
  | _ + 1, none => []
  | n + 1, some a => a :: follow next n (next a)

/-- A chain is what following its links gives. -/
theorem Chain.follow_eq {n : Nat} (h : Chain next p l) (hn : l.length ≤ n) :
    follow next n p = l := by
  induction l generalizing p n with
  | nil =>
    rw [chain_nil.mp h]
    cases n <;> rfl
  | cons a l ih =>
    cases n with
    | zero => cases hn
    | succ n =>
      rw [h.1]
      exact congrArg (a :: ·) (ih h.2 (Nat.le_of_succ_le_succ hn))

end Chain

/-! ## Queues side by side -/

section Queues

variable {ι : Type*} [DecidableEq ι] [DecidableEq α] {next next' : α → Option α}
  {head head' : ι → Option α} {live : ι → Prop} {Q : ι → List α} {i j : ι} {p q : α} {l : List α}

open Function

/-- The links spell out the queues that are in use, and no node is on two queues. -/
structure Queues (next : α → Option α) (head : ι → Option α) (live : ι → Prop)
    (Q : ι → List α) : Prop where
  chain : ∀ i, live i → Chain next (head i) (Q i)
  unused : ∀ i, ¬live i → Q i = []
  unique : ∀ {i j p}, p ∈ Q i → p ∈ Q j → i = j

/-- A node that is on no queue joins the end of one. -/
theorem Queues.snoc (h : Queues next head live Q) (hi : live i) (hp : ∀ j, p ∉ Q j)
    (hnext : ∀ q, next' q =
      if q = p then none else if (Q i).getLast? = some q then some p else next q)
    (hhead : head' i = (head i).or (some p)) (hother : ∀ j, j ≠ i → head' j = head j) :
    Queues next' head' live (update Q i (Q i ++ [p])) := by
  have hne : ∀ {j q}, q ∈ Q j → q ≠ p := fun hq e => hp _ (e ▸ hq)
  refine ⟨fun j hj => ?_, fun j hj => ?_, fun {j₁ j₂ q} h₁ h₂ => ?_⟩
  · by_cases hji : j = i
    · subst hji
      rw [hhead, update_self]
      exact (h.chain j hj).snoc (by rw [hnext, if_pos rfl]) fun q hq => by
        rw [hnext, if_neg (hne hq)]
    · rw [update_of_ne hji, hother j hji]
      refine (h.chain j hj).congr fun q hq => ?_
      have hlast : (Q i).getLast? ≠ some q := fun e => hji (h.unique hq (mem_of_getLast? e))
      rw [hnext, if_neg (hne hq), if_neg hlast]
  · have hji : j ≠ i := fun e => hj (e ▸ hi)
    rw [update_of_ne hji]
    exact h.unused j hj
  · have hold := h.unique (i := j₁) (j := j₂) (p := q)
    grind

omit [DecidableEq α] in
/-- The first node leaves its queue. -/
theorem Queues.pop (h : Queues next head live Q) (hi : live i) (hl : Q i = p :: l)
    (hnext : ∀ q, q ≠ p → next' q = next q) (hhead : head' i = next p)
    (hother : ∀ j, j ≠ i → head' j = head j) : Queues next' head' live (update Q i l) := by
  have hchain := h.chain i hi
  rw [hl] at hchain
  have hpl := (nodup_cons.mp hchain.nodup).1
  refine ⟨fun j hj => ?_, fun j hj => ?_, fun {j₁ j₂ q} h₁ h₂ => ?_⟩
  · by_cases hji : j = i
    · subst hji
      rw [update_self, hhead]
      exact hchain.2.congr fun q hq => hnext q fun e => hpl (e ▸ hq)
    · rw [update_of_ne hji, hother j hji]
      refine (h.chain j hj).congr fun q hq => hnext q fun e => ?_
      exact hji (h.unique hq (by rw [hl, e]; exact mem_cons_self))
  · have hji : j ≠ i := fun e => hj (e ▸ hi)
    rw [update_of_ne hji]
    exact h.unused j hj
  · have hold := h.unique (i := j₁) (j := j₂) (p := q)
    grind

end Queues

/-! ## Doubly linked -/

/-- The nodes from `h` along `next` are `l`, each points back to the one before it and the first to
`p`. -/
def Dll (next prev : α → Option α) (p h : Option α) : List α → Prop
  | [] => h = none
  | a :: l => h = some a ∧ prev a = p ∧ Dll next prev (some a) (next a) l

section Dll

variable {next prev next' prev' : α → Option α} {p h : Option α} {a : α} {l l₁ l₂ : List α}

theorem Dll.head_eq (hd : Dll next prev p h l) : h = l.head? := by
  cases l with
  | nil => exact hd
  | cons a l => exact hd.1

/-- A doubly linked list depends on the links of its own nodes only. -/
theorem Dll.congr (hd : Dll next prev p h l) (hn : ∀ a ∈ l, next' a = next a)
    (hp : ∀ a ∈ l, prev' a = prev a) : Dll next' prev' p h l := by
  induction l generalizing p h with
  | nil => exact hd
  | cons a l ih =>
    refine ⟨hd.1, ?_, ?_⟩
    · rw [hp a mem_cons_self]; exact hd.2.1
    · rw [hn a mem_cons_self]
      exact ih hd.2.2 (fun b hb => hn b (mem_cons_of_mem _ hb))
        fun b hb => hp b (mem_cons_of_mem _ hb)

/-- The links around a node in the middle of the list. -/
theorem Dll.links (hd : Dll next prev p h (l₁ ++ a :: l₂)) :
    next a = l₂.head? ∧ prev a = (l₁.getLast?).or p := by
  induction l₁ generalizing p h with
  | nil => exact ⟨hd.2.2.head_eq, hd.2.1⟩
  | cons b l₁ ih =>
    obtain ⟨hn, hp⟩ := ih hd.2.2
    refine ⟨hn, hp.trans ?_⟩
    cases l₁ with
    | nil => rfl
    | cons c l₁ => simp [getLast?_eq_getLast_of_ne_nil]

variable [DecidableEq α]

/-- Pushing a node in front: its links are set, and the old first node points back to
it. -/
theorem Dll.push (hd : Dll next prev none h l) (ha : a ∉ l) (hl : l.Nodup)
    (hna : next' a = h) (hpa : prev' a = none) (hn : ∀ b ∈ l, next' b = next b)
    (hp : ∀ b ∈ l, prev' b = if h = some b then some a else prev b) :
    Dll next' prev' none (some a) (a :: l) := by
  refine ⟨rfl, hpa, ?_⟩
  rw [hna]
  cases l with
  | nil => exact hd
  | cons b l =>
    obtain ⟨rfl, hpb, hd⟩ := hd
    refine ⟨rfl, ?_, ?_⟩
    · rw [hp b mem_cons_self, if_pos rfl]
    · rw [hn b mem_cons_self]
      refine hd.congr (fun c hc => hn c (mem_cons_of_mem _ hc)) fun c hc => ?_
      have hne : b ≠ c := fun e => (nodup_cons.mp hl).1 (e ▸ hc)
      rw [hp c (mem_cons_of_mem _ hc), if_neg fun e => hne (Option.some.inj e)]

/-- Unlinking a node: its neighbours are linked to each other, and the head moves on if
it was the node. -/
theorem Dll.remove (hd : Dll next prev p h (l₁ ++ a :: l₂)) (hl : (l₁ ++ a :: l₂).Nodup)
    (hp0 : ∀ q, p = some q → q ∉ l₁ ++ a :: l₂)
    (hn : ∀ b ∈ l₁ ++ l₂, next' b = if prev a = some b then next a else next b)
    (hp : ∀ b ∈ l₁ ++ l₂, prev' b = if next a = some b then prev a else prev b) :
    Dll next' prev' p (if h = some a then next a else h) (l₁ ++ l₂) := by
  induction l₁ generalizing p h with
  | nil =>
    obtain ⟨rfl, hpa, hd⟩ := hd
    rw [if_pos rfl]
    cases l₂ with
    | nil => exact hd
    | cons c l₂ =>
      obtain ⟨hc, hpc, hd⟩ := hd
      refine ⟨hc, by grind, ?_⟩
      have hnc : next' c = next c := by grind
      rw [hnc]
      exact hd.congr (by grind) (by grind)
  | cons b l₁ ih =>
    obtain ⟨rfl, hpb, hd⟩ := hd
    obtain ⟨hna, hpa⟩ := hd.links
    have hhead : next b = (l₁ ++ a :: l₂).head? := hd.head_eq
    have hab : b ≠ a := by grind
    have hafter : next a ≠ some b := fun e => by
      have hmem := mem_of_head? (hna.symm.trans e)
      grind
    have hnb : next' b = if next b = some a then next a else next b := by
      -- `b` is the node before `a` exactly if nothing of the list stands between them
      cases l₁ with
      | nil => simp_all
      | cons c l₁ =>
        have hmem : ∀ q, (c :: l₁).getLast? = some q → q ∈ c :: l₁ := fun q => mem_of_getLast?
        grind
    rw [if_neg fun e => hab (Option.some.inj e)]
    refine ⟨rfl, by grind, ?_⟩
    rw [hnb]
    exact ih hd (nodup_cons.mp hl).2 (by grind) (by grind) (by grind)

end Dll

end Aeryk.Lib
