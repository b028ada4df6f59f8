import Mathlib.Algebra.GroupWithZero.Nat
import Mathlib.Data.List.GetD
import Mathlib.Data.List.Infix
import Mathlib.Logic.Function.Basic

/-!
# Texts in pieces

Programs that take a text apart move an index through it while a test holds (`advance`).  `TextAt`
says which text stands in a buffer from an index on.  `pieces sep l` are the parts of a list
between separators, without the empty ones.  `fitting` is the longest start of a list of items that
fits into a given room.
-/

namespace Aeryk.Lib

open List Function

variable {α : Type*}

/-! ## Moving an index -/

/-- The index moves on while the test holds, `fuel` times at most. -/
def advance (p : Nat → Bool) : Nat → Nat → Nat
  | 0, i => i
  | fuel + 1, i => if p i then advance p fuel (i + 1) else i

theorem advance_stay {p : Nat → Bool} {i fuel : Nat} (h : p i = false) : advance p fuel i = i := by
  cases fuel with
  | zero => rfl
  | succ fuel => rw [advance, h, if_neg Bool.false_ne_true]

/-- The index stops at the first place that fails the test. -/
theorem advance_eq {p : Nat → Bool} {i len fuel : Nat} (hall : ∀ k < len, p (i + k) = true)
    (hstop : p (i + len) = false) (hfuel : len ≤ fuel) : advance p fuel i = i + len := by
  induction len generalizing i fuel with
  | zero =>
    rw [Nat.add_zero] at hstop ⊢
    exact advance_stay hstop
  | succ len ih =>
    cases fuel with
    | zero => cases hfuel
    | succ fuel =>
      have hnext : ∀ k, i + 1 + k = i + (k + 1) := fun k => by omega
      have hfirst : p i = true := hall 0 (Nat.succ_pos len)
      have hrest : advance p fuel (i + 1) = i + 1 + len := by
        refine ih (fun k hk => ?_) ?_ (Nat.le_of_succ_le_succ hfuel)
        · rw [hnext]
          exact hall (k + 1) (Nat.succ_lt_succ hk)
        · rw [hnext]
          exact hstop
      rw [advance, hfirst, if_pos rfl, hrest, hnext]

/-- An item behind the first part of a list. -/
theorem getD_append_add (d : α) (pre l : List α) (k : Nat) :
    (pre ++ l).getD (pre.length + k) d = l.getD k d := by
  rw [getD_append_right _ _ _ _ (Nat.le_add_right _ _), Nat.add_sub_cancel_left]

theorem getD_append_length (d : α) (pre l : List α) :
    (pre ++ l).getD pre.length d = l.headD d := by
  have h := getD_append_add d pre l 0
  rw [Nat.add_zero] at h
  rw [h]
  cases l with
  | nil => rfl
  | cons a l => rfl

/-! ## Texts in a buffer -/

section

variable {z : α} {buf buf' : Nat → α} {s fuel : Nat} {t w : List α}

/-- The text stands in the buffer from an index on, with `z` behind it. -/
def TextAt (z : α) (buf : Nat → α) : Nat → List α → Prop
  | s, [] => buf s = z
  | s, c :: t => buf s = c ∧ TextAt z buf (s + 1) t

/-- A text depends on its own places only. -/
theorem TextAt.congr (h : TextAt z buf s t)
    (hbuf : ∀ i, s ≤ i → i ≤ s + t.length → buf' i = buf i) : TextAt z buf' s t := by
  induction t generalizing s with
  | nil => exact (hbuf s (Nat.le_refl s) (Nat.le_refl s)).trans h
  | cons c t ih =>
    rw [length_cons] at hbuf
    exact ⟨(hbuf s (Nat.le_refl s) (by omega)).trans h.1,
      ih h.2 fun i hi hi' => hbuf i (by omega) (by omega)⟩

theorem textAt_of_getElem (h : ∀ k (hk : k < t.length), buf (s + k) = t[k])
    (hz : buf (s + t.length) = z) : TextAt z buf s t := by
  induction t generalizing s with
  | nil => exact hz
  | cons c t ih =>
    have hnext : ∀ k, s + 1 + k = s + (k + 1) := fun k => by omega
    refine ⟨h 0 (Nat.succ_pos _), ih (fun k hk => ?_) ?_⟩
    · rw [hnext]
      exact h (k + 1) (Nat.succ_lt_succ hk)
    · rw [hnext]
      exact hz

/-- A text is cut short. -/
theorem TextAt.cut (h : TextAt z buf s (w ++ t)) : TextAt z (update buf (s + w.length) z) s w := by
  induction w generalizing s with
  | nil => exact update_self ..
  | cons c w ih =>
    have hsum : s + (c :: w).length = s + 1 + w.length := by
      rw [length_cons]
      omega
    rw [hsum]
    exact ⟨(update_of_ne (by omega) ..).trans h.1, ih h.2⟩

/-- The index stops behind the first items that pass the test. -/
theorem TextAt.skip {q : α → Bool} (h : TextAt z buf s t) (hz : q z = false)
    (hfuel : t.length ≤ fuel) :
    advance (fun i => q (buf i)) fuel s = s + (t.takeWhile q).length ∧
      TextAt z buf (s + (t.takeWhile q).length) (t.dropWhile q) := by
  induction t generalizing s fuel with
  | nil =>
    have hstop : q (buf s) = false := (congrArg q h).trans hz
    exact ⟨advance_stay hstop, h⟩
  | cons c t ih =>
    cases fuel with
    | zero => cases hfuel
    | succ fuel =>
      obtain ⟨rfl, h⟩ := h
      cases hq : q (buf s) with
      | false => simpa [advance, hq] using ⟨rfl, h⟩
      | true =>
        obtain ⟨hadvance, htext⟩ := ih h (Nat.le_of_succ_le_succ hfuel)
        have hsum : s + (buf s :: t.takeWhile q).length = s + 1 + (t.takeWhile q).length := by
          rw [length_cons]
          omega
        rw [takeWhile_cons_of_pos hq, dropWhile_cons_of_pos hq, hsum, advance, hq,
          if_pos rfl]
        exact ⟨hadvance, htext⟩

variable [DecidableEq α]

def textFrom (z : α) (buf : Nat → α) : Nat → Nat → List α
  | 0, _ => []
  | fuel + 1, s => if buf s = z then [] else buf s :: textFrom z buf fuel (s + 1)

theorem TextAt.textFrom_eq (h : TextAt z buf s t) (hz : z ∉ t) (hfuel : t.length ≤ fuel) :
    textFrom z buf fuel s = t := by
  induction t generalizing s fuel with
  | nil =>
    cases fuel with
    | zero => rfl
    | succ fuel => exact if_pos h
  | cons c t ih =>
    cases fuel with
    | zero => cases hfuel
    | succ fuel =>
      obtain ⟨rfl, h⟩ := h
      have hne : buf s ≠ z := fun he => hz (by rw [he]; exact mem_cons_self)
      rw [textFrom, if_neg hne,
        ih h (fun hm => hz (mem_cons_of_mem _ hm)) (Nat.le_of_succ_le_succ hfuel)]

end

/-- Where the parts of a text begin, with one item between two of them. -/
def starts : Nat → List (List α) → List Nat
  | _, [] => []
  | s, w :: ws => s :: starts (s + w.length + 1) ws

@[simp] theorem length_starts (s : Nat) (ws : List (List α)) :
    (starts s ws).length = ws.length := by
  induction ws generalizing s with
  | nil => rfl
  | cons w ws ih => exact congrArg (· + 1) (ih _)

theorem starts_take (n s : Nat) (ws : List (List α)) :
    starts s (ws.take n) = (starts s ws).take n := by
  induction ws generalizing n s with
  | nil => simp [starts]
  | cons w ws ih =>
    cases n with
    | zero => rfl
    | succ n => exact congrArg (s :: ·) (ih ..)

/-- Texts in a row depend on the places from the first of them on. -/
theorem textsAt_congr {z : α} {buf buf' : Nat → α} {s : Nat} {ws : List (List α)}
    (h : List.Forall₂ (TextAt z buf) (starts s ws) ws) (hbuf : ∀ i, s ≤ i → buf' i = buf i) :
    List.Forall₂ (TextAt z buf') (starts s ws) ws := by
  induction ws generalizing s with
  | nil => exact .nil
  | cons w ws ih =>
    obtain ⟨hw, hws⟩ := forall₂_cons.mp h
    exact .cons (hw.congr fun i hi _ => hbuf i hi) (ih hws fun i hi => hbuf i (by omega))

/-- Lists that correspond item by item have the same values. -/
theorem map_eq_of_forall₂ {β γ : Type*} {R : α → β → Prop} {f : α → γ} {g : β → γ} {l : List α}
    {l' : List β} (h : List.Forall₂ R l l') (hR : ∀ a, ∀ b ∈ l', R a b → f a = g b) :
    l.map f = l'.map g := by
  induction h with
  | nil => rfl
  | @cons a b l l' hab _ ih =>
    rw [map_cons, map_cons, hR a b mem_cons_self hab,
      ih fun a b hb => hR a b (mem_cons_of_mem _ hb)]

/-! ## Pieces between separators -/

section

variable [DecidableEq α] {sep : α} {c t : List α}

theorem splitOn_sep_cons (sep : α) (t : List α) :
    (sep :: t).splitOn sep = [] :: t.splitOn sep := by
  unfold splitOn
  rw [splitOnP_cons_eq_if_modifyHead, if_pos (by simp)]

/-- An item that is not a separator belongs to the first part. -/
theorem splitOn_cons {a : α} (ha : a ≠ sep) (t : List α) :
    ∃ w ws, t.splitOn sep = w :: ws ∧ (a :: t).splitOn sep = (a :: w) :: ws := by
  obtain ⟨w, ws, h⟩ := exists_cons_of_ne_nil (splitOnP_ne_nil (· == sep) t)
  refine ⟨w, ws, h, ?_⟩
  unfold splitOn
  rw [splitOnP_cons_eq_if_modifyHead, if_neg (by simpa using ha), h]
  rfl

theorem sublist_of_mem_splitOn (h : c ∈ t.splitOn sep) : c.Sublist t := by
  induction t generalizing c with
  | nil =>
    rw [splitOn_nil, mem_singleton] at h
    rw [h]
  | cons a t ih =>
    by_cases ha : a = sep
    · rw [ha, splitOn_sep_cons] at h
      rcases mem_cons.mp h with rfl | h
      · exact nil_sublist _
      · exact (ih h).cons a
    · obtain ⟨w, ws, hw, haw⟩ := splitOn_cons ha t
      rw [haw] at h
      rcases mem_cons.mp h with rfl | h
      · exact (ih (hw ▸ mem_cons_self)).cons_cons a
      · exact (ih (hw ▸ mem_cons_of_mem _ h)).cons a

/-- What stands between separators and is not empty. -/
def pieces (sep : α) (l : List α) : List (List α) := (l.splitOn sep).filter (· ≠ [])

@[simp] theorem pieces_nil (sep : α) : pieces sep [] = [] := by
  unfold pieces
  rw [splitOn_nil]
  exact filter_eq_nil_iff.mpr (by simp)

@[simp] theorem pieces_sep_cons (sep : α) (t : List α) : pieces sep (sep :: t) = pieces sep t := by
  unfold pieces
  rw [splitOn_sep_cons, filter_cons_of_neg (by simp)]

theorem sublist_of_mem_pieces (h : c ∈ pieces sep t) : c.Sublist t :=
  sublist_of_mem_splitOn (mem_of_mem_filter h)

theorem pieces_dropWhile (sep : α) (t : List α) :
    pieces sep (t.dropWhile (· = sep)) = pieces sep t := by
  induction t with
  | nil => rfl
  | cons c t ih =>
    by_cases hc : c = sep
    · rw [dropWhile_cons_of_pos (by simpa using hc), ih, hc, pieces_sep_cons]
    · rw [dropWhile_cons_of_neg (by simpa using hc)]

theorem beq_eq_false_of_not_mem (hc : sep ∉ c) : ∀ b ∈ c, (b == sep) = false := by
  intro b hb
  simpa using fun h : b = sep => hc (h ▸ hb)

theorem pieces_single (hne : c ≠ []) (hc : sep ∉ c) : pieces sep c = [c] := by
  unfold pieces
  rw [splitOn, splitOnP_eq_singleton (beq_eq_false_of_not_mem hc)]
  simp [hne]

theorem pieces_append_cons (hne : c ≠ []) (hc : sep ∉ c) (t : List α) :
    pieces sep (c ++ sep :: t) = c :: pieces sep t := by
  unfold pieces
  rw [splitOn,
    splitOnP_append_cons_of_forall_mem (beq_eq_false_of_not_mem hc) sep (by simp) t,
    filter_cons_of_pos (by simpa using hne)]
  rfl

end

/-! ## What fits -/

section

variable {size : α → Nat} {room : Nat} {l p : List α} {a : α}

/-- The longest start of the list whose sizes add up to `room` at most. -/
def fitting (size : α → Nat) : Nat → List α → List α
  | _, [] => []
  | room, a :: l => if size a ≤ room then a :: fitting size (room - size a) l else []

theorem fitting_isPrefix (size : α → Nat) (room : Nat) (l : List α) :
    fitting size room l <+: l := by
  induction l generalizing room with
  | nil => exact nil_prefix
  | cons a l ih =>
    rw [fitting]
    split
    · exact cons_prefix_cons.mpr ⟨rfl, ih _⟩
    · exact nil_prefix

theorem sum_fitting_le (size : α → Nat) (room : Nat) (l : List α) :
    ((fitting size room l).map size).sum ≤ room := by
  induction l generalizing room with
  | nil => exact Nat.zero_le _
  | cons a l ih =>
    rw [fitting]
    split
    · have hrest := ih (room - size a)
      rw [map_cons, sum_cons]
      omega
    · exact Nat.zero_le _

/-- Every start that fits is part of the longest one. -/
theorem prefix_fitting (hp : p <+: l) (hsum : (p.map size).sum ≤ room) :
    p <+: fitting size room l := by
  induction l generalizing p room with
  | nil => exact hp
  | cons a l ih =>
    cases p with
    | nil => exact nil_prefix
    | cons b p =>
      obtain ⟨rfl, hrest⟩ := cons_prefix_cons.mp hp
      rw [map_cons, sum_cons] at hsum
      rw [fitting, if_pos (by omega)]
      exact cons_prefix_cons.mpr ⟨rfl, ih hrest (by omega)⟩

/-- Less room is enough exactly if what fits into more of it fits. -/
theorem fitting_eq_iff {room' : Nat} (hle : room' ≤ room) :
    fitting size room' l = fitting size room l ↔ ((fitting size room l).map size).sum ≤ room' := by
  constructor
  · intro h
    rw [← h]
    exact sum_fitting_le size room' l
  · intro h
    have hless : fitting size room' l <+: fitting size room l :=
      prefix_fitting (fitting_isPrefix size room' l) ((sum_fitting_le size room' l).trans hle)
    have hmore : fitting size room l <+: fitting size room' l :=
      prefix_fitting (fitting_isPrefix size room l) h
    exact hless.eq_of_length (Nat.le_antisymm hless.length_le hmore.length_le)

end

end Aeryk.Lib
