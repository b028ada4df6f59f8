import Aeryk.Lib.Cyclic
import Aeryk.Lib.Texts
import Aeryk.Pipe.Buffer

/-!
# The shell

One turn of the loop of `sh.c`, from the line that was read to the arguments its programs get.  The
line is split in place: each `'|'` becomes a `NUL`, and so does the space behind each word.  The
pointers to the stages and words are indices into the line.

There is room for eight stages and for eight words in each.  What is beyond is left out without a
message, so the shell runs what was typed only if it fits, or if one of the first eight stages has
no word.
-/

namespace Aeryk.Shell

open List Function Lib

def lineMax : Nat := 128

def maxArgs : Nat := 8

def maxStages : Nat := 8

/-- `'|'` -/
def bar : Byte := 0x7c#8

/-- `' '` -/
def space : Byte := 0x20#8

/-- `'\n'` -/
def newline : Byte := 0x0a#8

/-- `"exit"` -/
def exitWord : List Byte := [0x65#8, 0x78#8, 0x69#8, 0x74#8]

/-! ## The code -/

/-- `read_line`, where `read` has returned `input`: the buffer and the length. -/
def readLine (buf : Nat → Byte) (input : List Byte) : (Nat → Byte) × Nat :=
  let buf := store buf 0 input
  let n := input.length
  let n := if n > 0 ∧ buf (n - 1) = newline then n - 1 else n
  (update buf n 0#8, n)

/-- The second loop of `tokenize`, with room for `n` more words. -/
def tokenLoop : Nat → (Nat → Byte) → Nat → (Nat → Byte) × List Nat
  | 0, buf, _ => (buf, [])
  | n + 1, buf, s =>
    if buf s = 0#8 then (buf, [])
    else
      let i := advance (fun i => buf i ≠ 0#8 && buf i ≠ space) lineMax s
      let (buf, i) := if buf i ≠ 0#8 then (update buf i 0#8, i + 1) else (buf, i)
      let r := tokenLoop n buf (advance (fun i => buf i = space) lineMax i)
      (r.1, s :: r.2)

/-- `tokenize`: the buffer and the pointers in `argv`. -/
def tokenize (buf : Nat → Byte) (s : Nat) : (Nat → Byte) × List Nat :=
  tokenLoop maxArgs buf (advance (fun i => buf i = space) lineMax s)

/-- The stages with another one, if there is room for it. -/
def keepStage (stages : List Nat) (a : Nat) : List Nat :=
  if stages.length < maxStages then stages ++ [a] else stages

/-- The loop that splits the line, from `p` on. -/
def splitLoop : Nat → (Nat → Byte) → Nat → List Nat → (Nat → Byte) × List Nat
  | 0, buf, _, stages => (buf, stages)
  | fuel + 1, buf, p, stages =>
    if buf p = 0#8 then (buf, stages)
    else if buf p = bar then
      splitLoop fuel (update buf p 0#8) (p + 1) (keepStage stages (p + 1))
    else splitLoop fuel buf (p + 1) stages

/-- The loop that calls `tokenize` for each stage. -/
def tokenizeAll : (Nat → Byte) → List Nat → (Nat → Byte) × List (List Nat)
  | buf, [] => (buf, [])
  | buf, s :: stages =>
    let r := tokenize buf s
    let rest := tokenizeAll r.1 stages
    (rest.1, r.2 :: rest.2)

inductive Outcome where
  /-- The shell asks for another line. -/
  | nothing
  | syntaxError
  | exits
  /-- One program for each stage, with these arguments. -/
  | runs (argvs : List (List (List Byte)))
deriving DecidableEq

/-- One turn of the loop of `main`. -/
def turn (buf : Nat → Byte) (input : List Byte) : Outcome :=
  let (buf, len) := readLine buf input
  if len = 0 then .nothing
  else
    let (buf, stages) := splitLoop lineMax buf 0 [0]
    let (buf, argvs) := tokenizeAll buf stages
    if [] ∈ argvs then .syntaxError
    else
      let words := argvs.map (map (textFrom 0#8 buf lineMax))
      if stages.length = 1 ∧ (words.head?.bind head?) = some exitWord then .exits
      else .runs words

/-! ## What was typed -/

def stagesOf (line : List Byte) : List (List Byte) := line.splitOn bar

def wordsOf (stage : List Byte) : List (List Byte) := pieces space stage

/-- The line has one stage, whose first word is `exit`. -/
def ExitCommand (line : List Byte) : Prop :=
  ∃ stage, stagesOf line = [stage] ∧ (wordsOf stage).head? = some exitWord

/-- A syntax error if some stage has no word, and all words of all stages otherwise. -/
def typed (line : List Byte) : Outcome :=
  if ∃ stage ∈ stagesOf line, wordsOf stage = [] then .syntaxError
  else .runs ((stagesOf line).map wordsOf)

section

variable {buf : Nat → Byte} {s n : Nat} {t line : List Byte}

/-! ## One stage -/

def inWord (b : Byte) : Bool := b ≠ 0#8 && b ≠ space

theorem tokenLoop_end (h : buf s = 0#8) : tokenLoop n buf s = (buf, []) := by
  cases n with
  | zero => rfl
  | succ n => exact if_pos h

/-- One turn of the loop over the words, with a space behind the word. -/
theorem tokenLoop_word {i : Nat} (hs : buf s ≠ 0#8)
    (hi : advance (fun i => inWord (buf i)) lineMax s = i) (hb : buf i ≠ 0#8) {s' : Nat}
    (hs' : advance (fun j => update buf i 0#8 j = space) lineMax (i + 1) = s') :
    tokenLoop (n + 1) buf s =
      ((tokenLoop n (update buf i 0#8) s').1, s :: (tokenLoop n (update buf i 0#8) s').2) := by
  subst hi hs'
  unfold inWord at *
  rw [tokenLoop, if_neg hs]
  simp only [if_pos hb]

/-- The last turn of the loop over the words. -/
theorem tokenLoop_last {i : Nat} (hs : buf s ≠ 0#8)
    (hi : advance (fun i => inWord (buf i)) lineMax s = i) (hb : buf i = 0#8) :
    tokenLoop (n + 1) buf s = (buf, [s]) := by
  have hstay : advance (fun j => buf j = space) lineMax i = i :=
    advance_stay (by rw [hb]; rfl)
  subst hi
  unfold inWord at *
  rw [tokenLoop, if_neg hs]
  simp only [if_neg (not_not.mpr hb), hstay, tokenLoop_end hb]

/-- A stage that begins with a word ends with it or goes on with a space. -/
theorem first_word (hz : 0#8 ∉ t) (hsp : t.head? ≠ some space) (hne : t ≠ []) :
    t.takeWhile inWord ≠ [] ∧ space ∉ t.takeWhile inWord ∧
      (t.dropWhile inWord = [] ∨ ∃ r, t.dropWhile inWord = space :: r) := by
  have hword : ∀ b ∈ t, inWord b = false → b = space := by
    intro b hb hw
    have hnz : b ≠ 0#8 := fun h => hz (h ▸ hb)
    simpa [inWord, hnz] using hw
  refine ⟨?_, ?_, ?_⟩
  · cases t with
    | nil => exact absurd rfl hne
    | cons c t =>
      cases hc : inWord c with
      | false => exact absurd (congrArg some (hword c mem_cons_self hc)) hsp
      | true =>
        rw [takeWhile_cons_of_pos hc]
        exact cons_ne_nil _ _
  · intro hm
    exact Bool.false_ne_true (mem_takeWhile_imp hm)
  · cases hr : t.dropWhile inWord with
    | nil => exact .inl rfl
    | cons b r =>
      have hb : inWord b = false := by
        have h := head?_dropWhile_not inWord t
        rw [hr] at h
        exact h
      have hmem : b ∈ t := (dropWhile_sublist inWord).mem (hr ▸ mem_cons_self)
      exact .inr ⟨r, by rw [hword b hmem hb]⟩

/-- Skipping spaces leaves a stage with the same words that begins with one, or an empty one. -/
theorem skip_spaces (h : TextAt 0#8 buf s t) (hz : 0#8 ∉ t) (hlen : t.length ≤ lineMax) :
    ∃ s' t', advance (fun i => buf i = space) lineMax s = s' ∧ TextAt 0#8 buf s' t' ∧
      0#8 ∉ t' ∧ t'.head? ≠ some space ∧ wordsOf t' = wordsOf t ∧ s ≤ s' ∧
      s' + t'.length = s + t.length := by
  obtain ⟨hi, htext⟩ := h.skip (q := fun b => b = space) rfl hlen
  have hsum : (t.takeWhile fun b => b = space).length +
      (t.dropWhile fun b => b = space).length = t.length := by
    rw [← length_append, takeWhile_append_dropWhile]
  refine ⟨_, _, hi, htext, fun hm => hz ((dropWhile_sublist _).mem hm), fun he => ?_,
    pieces_dropWhile space t, Nat.le_add_right _ _, by omega⟩
  have hnot := head?_dropWhile_not (fun b => decide (b = space)) t
  rw [he] at hnot
  exact absurd rfl (of_decide_eq_false hnot)

/-- The words are in the buffer, between two indices. -/
def WordsAt (buf : Nat → Byte) (lo hi : Nat) : List Nat → List (List Byte) → Prop :=
  List.Forall₂ fun a w => TextAt 0#8 buf a w ∧ lo ≤ a ∧ a + w.length ≤ hi

/-- The words that fit are in the buffer, and nothing but the stage is written. -/
theorem tokenLoop_spec (h : TextAt 0#8 buf s t) (hz : 0#8 ∉ t) (hsp : t.head? ≠ some space)
    (hlen : t.length ≤ lineMax) :
    (∀ i, i < s ∨ s + t.length ≤ i → (tokenLoop n buf s).1 i = buf i) ∧
      WordsAt (tokenLoop n buf s).1 s (s + t.length) (tokenLoop n buf s).2
        ((wordsOf t).take n) := by
  induction n generalizing buf s t with
  | zero => exact ⟨fun i _ => rfl, .nil⟩
  | succ n ih =>
    by_cases hne : t = []
    · subst hne
      rw [tokenLoop_end h, wordsOf, pieces_nil]
      exact ⟨fun i _ => rfl, .nil⟩
    obtain ⟨hw, hnospace, hrest⟩ := first_word hz hsp hne
    obtain ⟨hi, htext⟩ := h.skip (q := inWord) rfl hlen
    have hsplit : t.takeWhile inWord ++ t.dropWhile inWord = t :=
      takeWhile_append_dropWhile
    have hs : buf s ≠ 0#8 := by
      cases t with
      | nil => exact absurd rfl hne
      | cons c t =>
        rw [h.1]
        exact fun hc => hz (hc ▸ mem_cons_self)
    generalize t.takeWhile inWord = w at *
    generalize t.dropWhile inWord = rest at *
    subst hsplit
    rcases hrest with rfl | ⟨r, rfl⟩
    · rw [append_nil] at *
      rw [tokenLoop_last hs hi htext, wordsOf, pieces_single hw hnospace, take_succ_cons,
        take_nil]
      exact ⟨fun i _ => rfl, .cons ⟨h, Nat.le_refl _, Nat.le_refl _⟩ .nil⟩
    · -- the space behind the word becomes the end of the word
      have hb : buf (s + w.length) ≠ 0#8 := by
        rw [htext.1]
        decide
      have hcut := h.cut
      have hafter : TextAt 0#8 (update buf (s + w.length) 0#8) (s + w.length + 1) r :=
        htext.2.congr fun i hi _ => update_of_ne (by omega) ..
      rw [length_append, length_cons] at *
      have hzr : 0#8 ∉ r := fun hm =>
        hz (mem_append_right _ (mem_cons_of_mem _ hm))
      obtain ⟨s', t', hs', ht', hz', hsp', hsame, hle, hend⟩ :=
        skip_spaces hafter hzr (by omega)
      obtain ⟨hframe, hwords⟩ := ih ht' hz' hsp' (by omega)
      rw [tokenLoop_word hs hi hb hs', wordsOf, pieces_append_cons hw hnospace, ← wordsOf,
        ← hsame, take_succ_cons]
      refine ⟨fun i hi => ?_, .cons ⟨?_, Nat.le_refl _, by omega⟩ (hwords.imp ?_)⟩
      · rw [hframe i (by omega), update_of_ne (by omega)]
      · exact hcut.congr fun i _ hi => hframe i (by omega)
      · rintro a v ⟨hv, hlo, hhi⟩
        exact ⟨hv, by omega, by omega⟩

/-- The words of a stage that fit, in the buffer after `tokenize`. -/
theorem tokenize_spec (h : TextAt 0#8 buf s t) (hz : 0#8 ∉ t) (hlen : t.length ≤ lineMax) :
    (∀ i, i < s ∨ s + t.length ≤ i → (tokenize buf s).1 i = buf i) ∧
      WordsAt (tokenize buf s).1 s (s + t.length) (tokenize buf s).2
        ((wordsOf t).take maxArgs) := by
  obtain ⟨s', t', hs', ht', hz', hsp', hsame, hle, hend⟩ := skip_spaces h hz hlen
  obtain ⟨hframe, hwords⟩ := tokenLoop_spec (n := maxArgs) ht' hz' hsp' (by omega)
  rw [tokenize, hs', ← hsame]
  refine ⟨fun i hi => hframe i (by omega), hwords.imp ?_⟩
  rintro a w ⟨hw, hlo, hhi⟩
  exact ⟨hw, by omega, by omega⟩

/-! ## All stages -/

/-- The words of each stage that fit, in the buffer after the last stage. -/
theorem tokenizeAll_spec {parts : List (List Byte)}
    (h : List.Forall₂ (TextAt 0#8 buf) (starts s parts) parts) (hz : ∀ t ∈ parts, 0#8 ∉ t)
    (hlen : ∀ t ∈ parts, t.length ≤ lineMax) :
    (∀ i < s, (tokenizeAll buf (starts s parts)).1 i = buf i) ∧
      List.Forall₂ (fun argv t => List.Forall₂ (TextAt 0#8 (tokenizeAll buf (starts s parts)).1)
        argv ((wordsOf t).take maxArgs)) (tokenizeAll buf (starts s parts)).2 parts := by
  induction parts generalizing buf s with
  | nil => exact ⟨fun i _ => rfl, .nil⟩
  | cons t parts ih =>
    obtain ⟨ht, hparts⟩ := forall₂_cons.mp h
    obtain ⟨hzt, hzp⟩ := forall_mem_cons.mp hz
    obtain ⟨hlt, hlp⟩ := forall_mem_cons.mp hlen
    obtain ⟨hframe, hwords⟩ := tokenize_spec ht hzt hlt
    have hparts' := textsAt_congr hparts fun i hi => hframe i (.inr (by omega))
    obtain ⟨hframe', hrest⟩ := ih hparts' hzp hlp
    refine ⟨fun i hi => ?_, .cons (hwords.imp ?_) hrest⟩
    · exact (hframe' i (by omega)).trans (hframe i (.inl hi))
    · rintro a w ⟨hw, hlo, hhi⟩
      exact hw.congr fun i _ hi => hframe' i (by omega)

theorem stagesOf_ne_nil (t : List Byte) : stagesOf t ≠ [] :=
  splitOnP_ne_nil _ t

theorem keepStage_append (stages : List Nat) (a : Nat) (l : List Nat) :
    keepStage stages a ++ l.take (maxStages - (keepStage stages a).length) =
      stages ++ (a :: l).take (maxStages - stages.length) := by
  unfold keepStage
  split
  next h =>
    have hroom : maxStages - stages.length = maxStages - (stages.length + 1) + 1 := by omega
    rw [length_append, length_singleton, hroom, take_succ_cons,
      append_assoc, singleton_append]
  next h =>
    have hroom : maxStages - stages.length = 0 := by omega
    rw [hroom, take_zero, take_zero]

/-- The line is cut at its bars, and eight stages are kept. -/
theorem splitLoop_spec {fuel p : Nat} (stages : List Nat) (h : TextAt 0#8 buf p t) (hz : 0#8 ∉ t)
    (hfuel : t.length < fuel) :
    (splitLoop fuel buf p stages).2 =
        stages ++ (starts p (stagesOf t)).tail.take (maxStages - stages.length) ∧
      (∀ i < p, (splitLoop fuel buf p stages).1 i = buf i) ∧
      List.Forall₂ (TextAt 0#8 (splitLoop fuel buf p stages).1) (starts p (stagesOf t))
        (stagesOf t) := by
  induction fuel generalizing buf p stages t with
  | zero => cases hfuel
  | succ fuel ih =>
    cases t with
    | nil =>
      have hend : splitLoop (fuel + 1) buf p stages = (buf, stages) := if_pos h
      have hone : stagesOf [] = [[]] := splitOn_nil bar
      rw [hend, hone]
      exact ⟨by simp [starts], fun i _ => rfl, .cons h .nil⟩
    | cons c t =>
      obtain ⟨hc, ht⟩ := h
      obtain ⟨hcz, hzt⟩ := not_or.mp (mt mem_cons.mpr hz)
      have hfuel' : t.length < fuel := Nat.lt_of_succ_lt_succ hfuel
      have hp : buf p ≠ 0#8 := by
        rw [hc]
        exact fun h => hcz h.symm
      by_cases hbar : c = bar
      · have hnext : splitLoop (fuel + 1) buf p stages = splitLoop fuel (update buf p 0#8)
            (p + 1) (keepStage stages (p + 1)) := by
          rw [splitLoop, if_neg hp, if_pos (hc.trans hbar)]
        have ht' : TextAt 0#8 (update buf p 0#8) (p + 1) t :=
          ht.congr fun i hi _ => update_of_ne (by omega) ..
        obtain ⟨hstages, hframe, htexts⟩ := ih (keepStage stages (p + 1)) ht' hzt hfuel'
        rw [hnext, hbar, stagesOf, splitOn_sep_cons, ← stagesOf]
        refine ⟨hstages.trans ?_, fun i hi => ?_, .cons ?_ htexts⟩
        · obtain ⟨w, ws, hw⟩ := exists_cons_of_ne_nil (stagesOf_ne_nil t)
          rw [hw]
          exact keepStage_append stages (p + 1) _
        · rw [hframe i (by omega), update_of_ne (by omega)]
        · exact (hframe p (Nat.lt_succ_self p)).trans (update_self ..)
      · have hnext : splitLoop (fuel + 1) buf p stages = splitLoop fuel buf (p + 1) stages := by
          rw [splitLoop, if_neg hp, if_neg (hc.symm ▸ hbar)]
        obtain ⟨hstages, hframe, htexts⟩ := ih stages ht hzt hfuel'
        obtain ⟨w, ws, hw, hcw⟩ := splitOn_cons hbar t
        have hstarts : p + (c :: w).length + 1 = p + 1 + w.length + 1 := by
          rw [length_cons]
          omega
        rw [stagesOf, hw] at hstages htexts
        obtain ⟨hfirst, hothers⟩ := forall₂_cons.mp htexts
        rw [hnext, stagesOf, hcw, starts, hstarts]
        refine ⟨hstages, fun i hi => hframe i (by omega), .cons ⟨?_, hfirst⟩ hothers⟩
        exact (hframe p (Nat.lt_succ_self p)).trans hc

/-! ## One line -/

def kept (line : List Byte) : List (List (List Byte)) :=
  ((stagesOf line).take maxStages).map fun t => (wordsOf t).take maxArgs

/-- `read_line` leaves the line without its newline. -/
theorem readLine_line (buf : Nat → Byte) (line : List Byte) :
    (readLine buf (line ++ [newline])).2 = line.length ∧
      TextAt 0#8 (readLine buf (line ++ [newline])).1 0 line := by
  have hin : ∀ k (hk : k < (line ++ [newline]).length),
      store buf 0 (line ++ [newline]) k = (line ++ [newline])[k] := by
    intro k hk
    have h := store_inside (b := buf) (i := 0) hk
    rwa [Nat.zero_add] at h
  have hlast : store buf 0 (line ++ [newline]) line.length = newline := by
    rw [hin _ (by simp), getElem_concat_length rfl]
  have hcut : readLine buf (line ++ [newline]) =
      (update (store buf 0 (line ++ [newline])) line.length 0#8, line.length) := by
    simp [readLine, hlast]
  rw [hcut]
  refine ⟨rfl, textAt_of_getElem (fun k hk => ?_) ?_⟩
  · rw [Nat.zero_add]
    refine (update_of_ne (Nat.ne_of_lt hk) ..).trans ?_
    rw [hin k (by simp; omega), getElem_append_left hk]
  · rw [Nat.zero_add]
    exact update_self ..

/-- The stages that are kept, and the words of each. -/
theorem tokenizeAll_kept {buf : Nat → Byte} (hlen : line.length ≤ lineMax) (hz : 0#8 ∉ line)
    (h : List.Forall₂ (TextAt 0#8 buf) (starts 0 (stagesOf line)) (stagesOf line)) :
    (tokenizeAll buf ((starts 0 (stagesOf line)).take maxStages)).2.map
        (map (textFrom 0#8
          (tokenizeAll buf ((starts 0 (stagesOf line)).take maxStages)).1 lineMax)) =
      kept line := by
  have hsub : ∀ t ∈ (stagesOf line).take maxStages, t.Sublist line :=
    fun t ht => sublist_of_mem_splitOn (mem_of_mem_take ht)
  have htake := forall₂_take maxStages h
  rw [← starts_take] at htake ⊢
  obtain ⟨-, hwords⟩ := tokenizeAll_spec htake (fun t ht hm => hz ((hsub t ht).mem hm))
    fun t ht => (hsub t ht).length_le.trans hlen
  refine map_eq_of_forall₂ hwords fun argv t ht hargv => ?_
  rw [← map_id ((wordsOf t).take maxArgs)]
  refine map_eq_of_forall₂ hargv fun a w hw htext => ?_
  have hsubw : w.Sublist line :=
    (sublist_of_mem_pieces (mem_of_mem_take hw)).trans (hsub t ht)
  exact htext.textFrom_eq (fun hm => hz (hsubw.mem hm)) (hsubw.length_le.trans hlen)

/-- One turn of the loop, for a line that is not empty. -/
theorem turn_line (buf : Nat → Byte) (hne : line ≠ []) (hlen : line.length < lineMax)
    (hz : 0#8 ∉ line) :
    turn buf (line ++ [newline]) =
      if [] ∈ kept line then .syntaxError
      else if (kept line).length = 1 ∧ ((kept line).head?.bind head?) = some exitWord then
        .exits
      else .runs (kept line) := by
  obtain ⟨hn, htext⟩ := readLine_line buf line
  obtain ⟨hstages, -, hparts⟩ := splitLoop_spec [0] htext hz hlen
  unfold turn
  generalize readLine buf (line ++ [newline]) = r at *
  obtain ⟨b, len⟩ := r
  simp only at hn hparts hstages ⊢
  rw [if_neg (by simpa [hn] using hne)]
  have hfirst : [0] ++ (starts 0 (stagesOf line)).tail.take (maxStages - 1) =
      (starts 0 (stagesOf line)).take maxStages := by
    obtain ⟨w, ws, hw⟩ := exists_cons_of_ne_nil (stagesOf_ne_nil line)
    rw [hw]
    rfl
  have hkept := tokenizeAll_kept (Nat.le_of_lt hlen) hz hparts
  generalize splitLoop lineMax b 0 [0] = r at *
  obtain ⟨b', stages⟩ := r
  simp only at hstages hkept ⊢
  rw [hstages, length_singleton, hfirst, hkept]
  have hempty : [] ∈ (tokenizeAll b' ((starts 0 (stagesOf line)).take maxStages)).2 ↔
      [] ∈ kept line := by
    rw [← hkept, mem_map]
    constructor
    · exact fun h => ⟨[], h, rfl⟩
    · rintro ⟨argv, hargv, hnil⟩
      rwa [map_eq_nil_iff.mp hnil] at hargv
  have hcount : ((starts 0 (stagesOf line)).take maxStages).length = (kept line).length := by
    rw [kept, length_map, length_take, length_take, length_starts]
  rw [hcount]
  simp only [hempty]

/-! ## What is dropped -/

/-- Only the exit command ends the shell. -/
theorem exitCommand_of_kept (hone : (kept line).length = 1)
    (hhead : ((kept line).head?.bind head?) = some exitWord) : ExitCommand line := by
  rw [kept, length_map, length_take] at hone
  have hlength : (stagesOf line).length = 1 := by
    unfold maxStages at hone
    omega
  obtain ⟨t, ht⟩ := length_eq_one_iff.mp hlength
  rw [kept, ht] at hhead
  refine ⟨t, ht, hhead.symm.trans ?_ |>.symm⟩
  exact head?_take.trans (if_neg (by decide))

/-- Everything is kept exactly if it fits. -/
theorem kept_eq_iff : kept line = (stagesOf line).map wordsOf ↔
    (stagesOf line).length ≤ maxStages ∧ ∀ t ∈ stagesOf line, (wordsOf t).length ≤ maxArgs := by
  constructor
  · intro h
    have hcount := congrArg length h
    rw [kept, length_map, length_map, length_take] at hcount
    have hfits : (stagesOf line).length ≤ maxStages := by omega
    rw [kept, take_of_length_le hfits] at h
    exact ⟨hfits, fun t ht => take_eq_self_iff _ |>.mp (map_inj_left.mp h t ht)⟩
  · rintro ⟨hfits, hwords⟩
    rw [kept, take_of_length_le hfits]
    exact map_inj_left.mpr fun t ht => take_of_length_le (hwords t ht)

theorem nil_mem_kept : [] ∈ kept line ↔ ∃ t ∈ (stagesOf line).take maxStages, wordsOf t = [] := by
  rw [kept, mem_map]
  refine exists_congr fun t => and_congr_right fun _ => ?_
  rw [take_eq_nil_iff]
  exact or_iff_right (by decide)

/-- **The shell does what was typed exactly if all of it fits, or if one of the first eight
stages has no word.** -/
theorem runs_typed_iff (buf : Nat → Byte) (hne : line ≠ []) (hlen : line.length ≤ lineMax - 2)
    (hz : 0#8 ∉ line) (hexit : ¬ExitCommand line) :
    turn buf (line ++ [newline]) = typed line ↔
      (∃ t ∈ (stagesOf line).take maxStages, wordsOf t = []) ∨
        ((stagesOf line).length ≤ maxStages ∧
          ∀ t ∈ stagesOf line, (wordsOf t).length ≤ maxArgs) := by
  have hshort : line.length < lineMax := Nat.lt_of_le_of_lt hlen (by decide)
  rw [turn_line buf hne hshort hz, ← kept_eq_iff]
  by_cases hbad : ∃ t ∈ (stagesOf line).take maxStages, wordsOf t = []
  · obtain ⟨t, ht, hnil⟩ := hbad
    have htyped : typed line = .syntaxError := if_pos ⟨t, mem_of_mem_take ht, hnil⟩
    rw [if_pos (nil_mem_kept.mpr ⟨t, ht, hnil⟩), htyped]
    exact iff_of_true rfl (.inl ⟨t, ht, hnil⟩)
  · rw [if_neg (mt nil_mem_kept.mp hbad), if_neg fun h => hexit (exitCommand_of_kept h.1 h.2),
      or_iff_right hbad]
    unfold typed
    split
    next hlate =>
      -- a stage without a word beyond the eighth is dropped
      obtain ⟨t, ht, hnil⟩ := hlate
      refine iff_of_false (fun h => by cases h) fun h => hbad ⟨t, ?_, hnil⟩
      rw [take_of_length_le (kept_eq_iff.mp h).1]
      exact ht
    next => rw [Outcome.runs.injEq]

/-- `ls|wc`, which fits. -/
theorem runs_typed_iff_twoStages :
    turn (fun _ => 0#8) ([0x6c#8, 0x73#8, bar, 0x77#8, 0x63#8] ++ [newline]) =
        typed [0x6c#8, 0x73#8, bar, 0x77#8, 0x63#8] ∧
      typed [0x6c#8, 0x73#8, bar, 0x77#8, 0x63#8] =
        .runs [[[0x6c#8, 0x73#8]], [[0x77#8, 0x63#8]]] := by
  have hexit : ¬ExitCommand [0x6c#8, 0x73#8, bar, 0x77#8, 0x63#8] := by
    rintro ⟨t, ht, -⟩
    have hone : (stagesOf [0x6c#8, 0x73#8, bar, 0x77#8, 0x63#8]).length = 1 := by rw [ht]; rfl
    exact absurd hone (by decide)
  exact ⟨(runs_typed_iff _ (by decide) (by decide) (by decide) hexit).mpr (.inr (by decide)),
    by decide⟩

/-- A line of nine words, `a b c d e f g h i`. -/
def nineWords : List Byte :=
  [0x61#8, space, 0x62#8, space, 0x63#8, space, 0x64#8, space, 0x65#8, space, 0x66#8, space,
    0x67#8, space, 0x68#8, space, 0x69#8]

/-- The ninth word is dropped without a message. -/
theorem ninth_word_dropped :
    typed nineWords = .runs [[[0x61#8], [0x62#8], [0x63#8], [0x64#8], [0x65#8], [0x66#8],
        [0x67#8], [0x68#8], [0x69#8]]] ∧
      turn (fun _ => 0#8) (nineWords ++ [newline]) = .runs [[[0x61#8], [0x62#8], [0x63#8],
        [0x64#8], [0x65#8], [0x66#8], [0x67#8], [0x68#8]]] := by
  decide +kernel

end

end Aeryk.Shell
