import Mathlib.Data.List.Induction

/-!
# Trees with named nodes

Nodes have lists of children, and every node has a name.  `lookup` follows a path, a list of names,
each time to the first child of that name.  In a tree whose siblings have different names
(`Rooted`), a node has one path, and a new child is found at its own path and changes nothing else.
-/

namespace Aeryk.Lib

open List

variable {ν κ : Type*} [DecidableEq κ]

def lookup (kids : ν → List ν) (name : ν → κ) : ν → List κ → Option ν
  | n, [] => some n
  | n, c :: p => ((kids n).find? fun k => decide (name k = c)).bind fun k => lookup kids name k p

/-- Siblings have different names, a node has one parent, and the root has none. -/
structure Rooted (kids : ν → List ν) (name : ν → κ) (root : ν) : Prop where
  apart : ∀ n, ∀ j ∈ kids n, ∀ k ∈ kids n, name j = name k → j = k
  parent : ∀ n m, ∀ k ∈ kids n, k ∈ kids m → n = m
  root : ∀ n, root ∉ kids n

variable {kids kids' : ν → List ν} {name name' : ν → κ} {root n k : ν} {p q : List κ} {c : κ}

@[simp] theorem lookup_nil : lookup kids name n [] = some n := rfl

theorem lookup_cons : lookup kids name n (c :: p) =
    ((kids n).find? fun k => decide (name k = c)).bind fun k => lookup kids name k p := rfl

theorem lookup_append : lookup kids name n (p ++ q) =
    (lookup kids name n p).bind fun m => lookup kids name m q := by
  induction p generalizing n with
  | nil => rfl
  | cons c p ih =>
    rw [cons_append, lookup_cons, lookup_cons]
    cases (kids n).find? fun k => decide (name k = c) with
    | none => rfl
    | some k => exact ih

theorem lookup_snoc : lookup kids name n (p ++ [c]) =
    (lookup kids name n p).bind fun m => (kids m).find? fun k => decide (name k = c) := by
  rw [lookup_append]
  congr 1
  funext m
  rw [lookup_cons]
  cases (kids m).find? fun k => decide (name k = c) with
  | none => rfl
  | some k => rfl

/-- The parent of the node at the end of a path. -/
theorem lookup_snoc_some (h : lookup kids name n (p ++ [c]) = some k) :
    ∃ m, lookup kids name n p = some m ∧ k ∈ kids m ∧ name k = c := by
  rw [lookup_snoc] at h
  obtain ⟨m, hm, hk⟩ := Option.bind_eq_some_iff.mp h
  exact ⟨m, hm, mem_of_find?_eq_some hk, by simpa using find?_some hk⟩

/-- What is before the end of a path is there. -/
theorem lookup_of_append (h : lookup kids name n (p ++ q) = some k) :
    ∃ m, lookup kids name n p = some m := by
  rw [lookup_append] at h
  obtain ⟨m, hm, -⟩ := Option.bind_eq_some_iff.mp h
  exact ⟨m, hm⟩

theorem Rooted.find? (h : Rooted kids name root) (hk : k ∈ kids n) :
    (kids n).find? (fun j => decide (name j = name k)) = some k := by
  cases hj : (kids n).find? fun j => decide (name j = name k) with
  | none =>
    have := find?_eq_none.mp hj k hk
    simp at this
  | some j =>
    have hname : name j = name k := by simpa using find?_some hj
    rw [h.apart n j (mem_of_find?_eq_some hj) k hk hname]

omit [DecidableEq κ] in
/-- A search depends on the members of the list only. -/
theorem find?_eq_of_mem {f g : ν → Bool} {l : List ν} (h : ∀ j ∈ l, f j = g j) :
    l.find? f = l.find? g := by
  induction l with
  | nil => rfl
  | cons a l ih =>
    rw [find?_cons, find?_cons, h a mem_cons_self,
      ih fun j hj => h j (mem_cons_of_mem a hj)]

/-- A node has one path. -/
theorem Rooted.path_unique (h : Rooted kids name root) (hp : lookup kids name root p = some n)
    (hq : lookup kids name root q = some n) : p = q := by
  induction p using reverseRecOn generalizing q n with
  | nil =>
    obtain rfl := Option.some.inj hp
    rcases eq_nil_or_concat q with rfl | ⟨q, c, rfl⟩
    · rfl
    · rw [concat_eq_append] at hq
      obtain ⟨m, -, hk, -⟩ := lookup_snoc_some hq
      exact absurd hk (h.root m)
  | append_singleton p c ih =>
    obtain ⟨m, hm, hk, rfl⟩ := lookup_snoc_some hp
    rcases eq_nil_or_concat q with rfl | ⟨q, d, rfl⟩
    · obtain rfl := Option.some.inj hq
      exact absurd hk (h.root m)
    · rw [concat_eq_append] at hq ⊢
      obtain ⟨m', hm', hk', rfl⟩ := lookup_snoc_some hq
      obtain rfl := h.parent m m' n hk hk'
      rw [ih hm hm']

/-! ## A new child -/

section

variable [DecidableEq ν] (h : Rooted kids name root) (hnew : ∀ m, k ∉ kids m) (hroot : k ≠ root)
  (hkids : ∀ m, kids' m = if m = n then k :: kids n else kids m)
  (hname : ∀ m, m ≠ k → name' m = name m) (hfree : ∀ j ∈ kids n, name j ≠ name' k)

include h hnew hkids hname

omit h hnew hname [DecidableEq κ] in
theorem mem_of_added {j m : ν} (hj : j ∈ kids' m) : j ∈ kids m ∨ (j = k ∧ m = n) := by
  rw [hkids] at hj
  grind

include hroot hfree

omit [DecidableEq κ] in
/-- The tree is still one. -/
theorem Rooted.add : Rooted kids' name' root := by
  have hold : ∀ m, ∀ j ∈ kids m, name' j = name j := by
    intro m j hj
    exact hname j fun hc => hnew m (hc ▸ hj)
  have hmem := fun m j (hj : j ∈ kids' m) => mem_of_added hkids hj
  obtain ⟨hapart, hparent, hnone⟩ := h
  constructor
  all_goals grind

/-- The new child is found at its path, and all else where it was. -/
theorem Rooted.lookup_add (hleaf : kids k = []) (hq : lookup kids name root q = some n) :
    lookup kids' name' root p =
      if p = q ++ [name' k] then some k else lookup kids name root p := by
  have hkn : k ≠ n := by
    rintro rfl
    rcases eq_nil_or_concat q with rfl | ⟨q, d, rfl⟩
    · exact hroot (Option.some.inj hq).symm
    · rw [concat_eq_append] at hq
      obtain ⟨m, -, hk, -⟩ := lookup_snoc_some hq
      exact hnew m hk
  -- the search among the children of an old node
  have hsearch : ∀ m d, ((kids m).find? fun j => decide (name' j = d)) =
      (kids m).find? fun j => decide (name j = d) := by
    intro m d
    refine find?_eq_of_mem fun j hj => ?_
    rw [hname j fun hc => hnew m (hc ▸ hj)]
  induction p using reverseRecOn with
  | nil => simp
  | append_singleton p c ih =>
    rw [lookup_snoc, ih, lookup_snoc]
    split
    next hp =>
      -- below the new child there is nothing, and there was nothing before
      subst hp
      have hlong : q ++ [name' k] ++ [c] ≠ q ++ [name' k] := by simp
      have hnone : lookup kids name root (q ++ [name' k]) = none := by
        rw [lookup_snoc, hq, Option.bind_some, find?_eq_none]
        intro j hj
        simpa using hfree j hj
      rw [if_neg hlong, hnone, Option.bind_some, hkids, if_neg hkn, hleaf]
      rfl
    next hp =>
      cases hm : lookup kids name root p with
      | none =>
        have hne : p ≠ q := by
          rintro rfl
          rw [hq] at hm
          cases hm
        simp [hne]
      | some m =>
        rw [Option.bind_some, Option.bind_some, hkids]
        by_cases hmn : m = n
        · obtain rfl := hmn
          obtain rfl := h.path_unique hm hq
          rw [if_pos rfl, find?_cons]
          by_cases hc : name' k = c
          · simp [hc]
          · have hne : p ++ [c] ≠ p ++ [name' k] := by
              simpa using fun he => hc he.symm
            rw [decide_eq_false hc, if_neg hne]
            exact hsearch m c
        · have hne : p ++ [c] ≠ q ++ [name' k] := by
            intro he
            obtain ⟨rfl, -⟩ := append_inj' he rfl
            rw [hm] at hq
            exact hmn (Option.some.inj hq)
          rw [if_neg hmn, if_neg hne]
          exact hsearch m c

end

end Aeryk.Lib
