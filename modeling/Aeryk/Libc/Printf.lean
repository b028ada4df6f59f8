import Mathlib.Data.List.TakeWhile
import Mathlib.Tactic.IntervalCases
import Aeryk.Libc.Format

/-!
# The output of a format

`utoa` writes the numeral of a number, and no number of the types that are printed overruns a
buffer (`conversion_eq`).  The pieces of a format make up its expansion (`expand_eq`), and a turn of
the loop takes the first of them (`text_pieces` and the equations of the turns).  So a sink that
takes everything gets the pieces one after the other, up to the one that would take the count beyond
an `int` (`Passes`).
-/

namespace Aeryk.Libc

open List Lib

/-! ## Numerals -/

theorem digit_eq {k : Nat} (hk : k < 16) : digit false k = ch (Nat.digitChar k) := by
  interval_cases k <;> rfl

theorem digitVal_digitChar {k : Nat} (hk : k < 16) : digitVal (ch (Nat.digitChar k)) = k := by
  interval_cases k <;> rfl

theorem decimal : 1 < 10 ∧ 10 ≤ 16 := by decide

theorem hexadecimal : 1 < 16 ∧ 16 ≤ 16 := by decide

section

variable {base value room : Nat}

/-- The digits come out in reverse, if there is a place for each. -/
theorem utoaTmp_eq (hbase : 1 < base ∧ base ≤ 16) (h : value < base ^ (room + 1)) :
    utoaTmp base false (room + 1) value = some (numeral base value).reverse := by
  induction room generalizing value with
  | zero =>
    rw [Nat.zero_add, Nat.pow_one] at h
    have hzero : value / base = 0 := Nat.div_eq_of_lt h
    rw [utoaTmp, numeral, Nat.toDigits_of_lt_base h]
    simp only [hzero, Nat.mod_eq_of_lt h, ne_eq, not_true_eq_false, if_false, map_cons,
      map_nil, reverse_singleton, digit_eq (Nat.lt_of_lt_of_le h hbase.2)]
  | succ room ih =>
    have hmod : value % base < 16 :=
      Nat.lt_of_lt_of_le (Nat.mod_lt value (by omega)) hbase.2
    rw [utoaTmp]
    by_cases hmore : value / base ≠ 0
    · have hle : base ≤ value := by
        by_contra hlt
        exact hmore (Nat.div_eq_of_lt (Nat.lt_of_not_le hlt))
      have hnext : value / base < base ^ (room + 1) :=
        Nat.div_lt_of_lt_mul (by rwa [← Nat.pow_succ'])
      have hdigits : numeral base value = numeral base (value / base) ++
          [ch (Nat.digitChar (value % base))] := by
        rw [numeral, Nat.toDigits_of_base_le hbase.1 hle, map_append]
        rfl
      rw [if_pos hmore, ih hnext, hdigits, digit_eq hmod, reverse_append]
      rfl
    · have hlt : value < base := by
        by_contra hge
        exact hmore (Nat.ne_of_gt (Nat.div_pos (Nat.le_of_not_lt hge) (by omega)))
      rw [if_neg hmore, numeral, Nat.toDigits_of_lt_base hlt, Nat.mod_eq_of_lt hlt,
        digit_eq (Nat.lt_of_lt_of_le hlt hbase.2)]
      rfl

theorem length_numeral (hbase : 1 < base) (hroom : 0 < room) :
    (numeral base value).length ≤ room ↔ value < base ^ room := by
  rw [numeral, length_map, Nat.length_toDigits_le_iff hbase hroom]

/-- `utoa` writes the numeral, if the buffer has room for it. -/
theorem utoa_eq (hbase : 1 < base ∧ base ≤ 16) (hroom : 0 < room ∧ room ≤ 32)
    (h : value < base ^ room) : utoa value base false room = some (numeral base value) := by
  have htmp : value < base ^ (31 + 1) :=
    Nat.lt_of_lt_of_le h (Nat.pow_le_pow_right (by omega) hroom.2)
  have hlen := (length_numeral hbase.1 hroom.1).mpr h
  rw [utoa, utoaTmp_eq hbase htmp]
  simp only [length_reverse, if_pos hlen, reverse_reverse]

/-- A numeral stands for its number. -/
theorem parse_numeral (hbase : 1 < base ∧ base ≤ 16) (n : Nat) :
    parse base (numeral base n) = n := by
  induction n using Nat.strong_induction_on with
  | _ n ih =>
    by_cases hlt : n < base
    · rw [numeral, Nat.toDigits_of_lt_base hlt]
      have hval := digitVal_digitChar (Nat.lt_of_lt_of_le hlt hbase.2)
      simp [parse, hval]
    · have hle := Nat.le_of_not_lt hlt
      have hless : n / base < n := Nat.div_lt_self (by omega) hbase.1
      have hmod : n % base < 16 := Nat.lt_of_lt_of_le (Nat.mod_lt n (by omega)) hbase.2
      have hrest := ih (n / base) hless
      rw [numeral, Nat.toDigits_of_base_le hbase.1 hle, map_append, parse, foldl_append]
      rw [numeral, parse] at hrest
      rw [hrest]
      simp only [map_cons, map_nil, foldl_cons, foldl_nil,
        digitVal_digitChar hmod]
      exact Nat.div_add_mod' n base

/-- A numeral is made of digits. -/
theorem mem_numeral (hbase : 1 < base ∧ base ≤ 16) {n : Nat} {d : Chr} (h : d ∈ numeral base n) :
    ∃ k < 16, d = ch (Nat.digitChar k) := by
  induction n using Nat.strong_induction_on with
  | _ n ih =>
    by_cases hlt : n < base
    · rw [numeral, Nat.toDigits_of_lt_base hlt] at h
      exact ⟨n, Nat.lt_of_lt_of_le hlt hbase.2, by simpa using h⟩
    · have hle := Nat.le_of_not_lt hlt
      rw [numeral, Nat.toDigits_of_base_le hbase.1 hle, map_append, mem_append] at h
      rcases h with h | h
      · exact ih (n / base) (Nat.div_lt_self (by omega) hbase.1) h
      · exact ⟨n % base, Nat.lt_of_lt_of_le (Nat.mod_lt n (by omega)) hbase.2, by simpa using h⟩

theorem digitChar_ne_minus {k : Nat} (hk : k < 16) : ch (Nat.digitChar k) ≠ ch '-' := by
  interval_cases k <;> decide

theorem numeral_ne_nil (base n : Nat) : numeral base n ≠ [] := by
  simp [numeral, Nat.toDigits_ne_nil]

/-- A signed numeral stands for its number. -/
theorem parseSigned_signedNumeral (n : Int) : parseSigned (signedNumeral n) = n := by
  rw [signedNumeral]
  split
  next hneg =>
    rw [parseSigned]
    simp only [if_true, parse_numeral decimal]
    omega
  next hpos =>
    cases hds : numeral 10 n.natAbs with
    | nil => exact absurd hds (numeral_ne_nil 10 n.natAbs)
    | cons c rest =>
      have hc : c ∈ numeral 10 n.natAbs := hds ▸ mem_cons_self
      obtain ⟨k, hk, rfl⟩ := mem_numeral decimal hc
      rw [parseSigned, if_neg (digitChar_ne_minus hk), ← hds, parse_numeral decimal]
      omega

end

theorem magnitude_eq {n : Int} (h : -2 ^ 31 ≤ n ∧ n < 2 ^ 31) : magnitude n = n.natAbs := by
  unfold magnitude
  split <;> omega

/-! ## Conversions -/

section

variable {d : Chr} {a : Arg} {args : List Arg} {text : List Chr}

theorem conversion_unsupported (h : isConversion d = false) : conversion d args = .unsupported := by
  simp only [isConversion, Bool.or_eq_false_iff, decide_eq_false_iff_not] at h
  obtain ⟨⟨⟨⟨⟨hc, hp⟩, hd⟩, hu⟩, hx⟩, hs⟩ := h
  simp only [conversion, if_neg hc, if_neg hp, if_neg hd, if_neg hu, if_neg hx, if_neg hs]

/-- No buffer is overrun, and the text of a matching argument is the one of the reference. -/
theorem conversion_eq (h : convert d a = some text) :
    conversion d (a :: args) = .text text args := by
  -- which branch is taken is decided by the character alone
  cases a with
  | int v =>
    have hv := v.isLt
    have hint : -2 ^ 31 ≤ v.toInt ∧ v.toInt < 2 ^ 31 :=
      ⟨BitVec.le_toInt v, BitVec.toInt_lt⟩
    have hten : utoa v.toNat 10 false 10 = some (numeral 10 v.toNat) :=
      utoa_eq (by decide) (by decide) (by omega)
    have hhex : utoa v.toNat 16 false 8 = some (numeral 16 v.toNat) :=
      utoa_eq (by decide) (by decide) (by omega)
    simp only [convert] at h
    split_ifs at h with hc hd hu hx
    all_goals
      cases h
      subst d
      simp +decide only [conversion, vaInt, if_true, if_false, hten, hhex]
    all_goals try rfl
    rw [signedNumeral, magnitude_eq hint]
    split
    all_goals
      rw [utoa_eq (by decide) (by decide) (by omega)]
      rfl
  | ptr v =>
    have hv := v.isLt
    simp only [convert] at h
    split at h
    next hp =>
      cases h
      subst d
      simp +decide only [conversion, vaPtr, if_true, if_false]
      rw [utoa_eq (by decide) (by decide) (by omega)]
      rfl
    · cases h
  | str s =>
    simp only [convert] at h
    split at h
    next hs =>
      cases h
      subst d
      simp +decide only [conversion, vaStr, Conversion.of, if_true, if_false]
    · cases h

end

/-! ## Pieces of the format -/

section

variable {c d : Chr} {rest : List Chr} {args : List Arg}

theorem flatten_joinText (c : Chr) (rest : List Chr) (ps : List (List Chr)) :
    (joinText c rest ps).flatten = c :: ps.flatten := by
  cases ps with
  | nil => rfl
  | cons text ps =>
    rw [joinText]
    split <;> rfl

/-- The pieces make up the expansion. -/
theorem expand_eq (format : List Chr) (args : List Arg) :
    expand format args = (pieces format args).map flatten := by
  fun_induction pieces format args with
  | case1 => rfl
  | case2 => rfl
  | case3 c d rest args hc ih =>
    rw [expand.eq_def]
    simp [hc, ih, Function.comp_def, flatten_joinText]
  | case4 c rest args hc ih =>
    rw [expand.eq_def]
    simp_all [Function.comp_def, flatten_joinText]
  | case5 c d rest hc hd hconv =>
    rw [expand.eq_def]
    simp_all
  | case6 c d rest hc hd hconv a args ih =>
    rw [expand.eq_def]
    simp_all [Option.map_bind, Function.comp_def]
  | case7 c d rest args hc hd hconv =>
    rw [expand.eq_def]
    simp_all

theorem pieces_cons_cons :
    pieces (c :: d :: rest) args =
      if c ≠ ch '%' then (pieces (d :: rest) args).map (joinText c (d :: rest))
      else if d = ch '%' then (pieces rest args).map (joinText (ch '%') rest)
      else if isConversion d then
        match args with
        | [] => none
        | a :: args => (convert d a).bind fun text => (pieces rest args).map (text :: ·)
      else some [c :: d :: rest] := by
  cases args with
  | nil => rw [pieces]
  | cons a args => rw [pieces]

theorem pieces_cons_of_ne (hc : c ≠ ch '%') :
    pieces (c :: rest) args = (pieces rest args).map (joinText c rest) := by
  cases rest with
  | nil => rfl
  | cons d rest => rw [pieces_cons_cons, if_pos hc]

theorem pieces_percent :
    pieces (ch '%' :: ch '%' :: rest) args = (pieces rest args).map (joinText (ch '%') rest) := by
  rw [pieces_cons_cons, if_neg (by decide), if_pos rfl]

/-- A run of text up to the next percent sign is one piece. -/
theorem text_pieces (c : Chr) (rest : List Chr) (args : List Arg) :
    (pieces rest args).map (joinText c rest) =
      (pieces (rest.dropWhile (· ≠ ch '%')) args).map
        ((c :: rest.takeWhile (· ≠ ch '%')) :: ·) := by
  induction rest generalizing c with
  | nil => rfl
  | cons d rest ih =>
    by_cases hd : d = ch '%'
    · have htext : joinText c (d :: rest) = ([c] :: ·) := by
        funext ps
        cases ps with
        | nil => rfl
        | cons text ps => simp [joinText, hd]
      rw [htext]
      simp [hd]
    · rw [pieces_cons_of_ne hd, ih d]
      simp [hd, joinText, Function.comp_def]

end

/-! ## What the sink gets -/

def Accepting {σ : Type} (sink : Sink σ) : Prop := ∀ st data, (sink st data).2 = true

def handed {σ : Type} (sink : Sink σ) (st : σ) (pieces : List (List Chr)) : σ :=
  pieces.foldl (fun st data => (sink st data).1) st

/-- The pieces before the one that takes the count beyond an `int`. -/
def fitting : Nat → List (List Chr) → List (List Chr)
  | _, [] => []
  | written, data :: ps =>
    if intMax - written < data.length then [] else data :: fitting (written + data.length) ps

/-- The sink gets the pieces that fit, and the answer is the count, or an error if some did not. -/
def Passes {σ : Type} (sink : Sink σ) (ps : List (List Chr)) (written : Nat) (st : σ)
    (result : Option (σ × Int)) : Prop :=
  result = some (handed sink st (fitting written ps),
    if written + ps.flatten.length ≤ intMax then ((written + ps.flatten.length : Nat) : Int)
    else -1)

section

variable {ps : List (List Chr)} {written : Nat}

theorem fitting_eq (h : written + ps.flatten.length ≤ intMax) : fitting written ps = ps := by
  induction ps generalizing written with
  | nil => rfl
  | cons data ps ih =>
    rw [flatten_cons, length_append, ← Nat.add_assoc] at h
    rw [fitting, if_neg (by omega), ih h]

/-- The pieces that fit end before the one with which the count would overflow. -/
theorem fitting_split (hw : written ≤ intMax) (h : intMax < written + ps.flatten.length) :
    ∃ piece later, ps = fitting written ps ++ piece :: later ∧
      written + (fitting written ps).flatten.length ≤ intMax ∧
      intMax < written + (fitting written ps ++ [piece]).flatten.length := by
  induction ps generalizing written with
  | nil => exact absurd h (Nat.not_lt_of_le hw)
  | cons data ps ih =>
    rw [flatten_cons, length_append, ← Nat.add_assoc] at h
    rw [fitting]
    split
    next hover => exact ⟨data, ps, rfl, hw, by simp; omega⟩
    next hroom =>
      obtain ⟨piece, later, hps, hle, hlt⟩ := ih (by omega) h
      refine ⟨piece, later, ?_, ?_, ?_⟩
      · rw [cons_append, ← hps]
      · rw [flatten_cons, length_append, ← Nat.add_assoc]
        exact hle
      · rw [cons_append, flatten_cons, length_append, ← Nat.add_assoc]
        exact hlt

end

theorem handed_bufferSink (mem : Nat → Chr) (a : Nat) (pieces : List (List Chr)) :
    handed bufferSink (mem, a) pieces =
      (store mem a pieces.flatten, a + pieces.flatten.length) := by
  induction pieces generalizing mem a with
  | nil => simp [handed]
  | cons data pieces ih =>
    have hone : handed bufferSink (mem, a) (data :: pieces) =
        handed bufferSink (store mem a data, a + data.length) pieces := rfl
    rw [hone, ih, store_append, flatten_cons, length_append, Nat.add_assoc]

section

variable {σ : Type} {sink : Sink σ} {written : Nat} {st : σ}

/-- The end of the format. -/
theorem passes_nil (hw : written ≤ intMax) :
    Passes sink [] written st (some (st, (written : Int))) := by
  simp [Passes, handed, fitting, hw]

/-- One piece and what follows it. -/
theorem emit_passes (hacc : Accepting sink) (hw : written ≤ intMax) {data : List Chr}
    {ps : List (List Chr)} {next : σ → Nat → Option (σ × Int)}
    (hnext : written + data.length ≤ intMax →
      Passes sink ps (written + data.length) (sink st data).1
        (next (sink st data).1 (written + data.length))) :
    Passes sink (data :: ps) written st (emit sink written st data next) := by
  rw [emit, Passes, fitting, flatten_cons, length_append, ← Nat.add_assoc]
  split
  next hover => rw [if_neg (by omega), handed, foldl_nil]
  next hroom =>
    rw [if_pos (hacc st data), hnext (by omega)]
    rfl

section

variable {fuel : Nat} {c d : Chr} {rest after : List Chr} {args : List Arg}

theorem take_literal (l : List Chr) :
    l.take (l.takeWhile (· ≠ ch '%')).length = l.takeWhile (· ≠ ch '%') :=
  (prefix_iff_eq_take.mp ( takeWhile_prefix _)).symm

theorem drop_literal (l : List Chr) :
    l.drop (l.takeWhile (· ≠ ch '%')).length = l.dropWhile (· ≠ ch '%') := by
  induction l with
  | nil => rfl
  | cons c l ih =>
    by_cases hc : c = ch '%'
    · simp [hc]
    · simpa [hc] using ih

/-- A turn on text. -/
theorem vcbprintfLoop_literal (hc : c ≠ ch '%') :
    vcbprintfLoop sink (fuel + 1) (c :: rest) args written st =
      emit sink written st (c :: rest.takeWhile (· ≠ ch '%')) fun st written =>
        vcbprintfLoop sink fuel (rest.dropWhile (· ≠ ch '%')) args written st := by
  rw [vcbprintfLoop.eq_def]
  dsimp only
  rw [if_pos (.inl hc), if_neg hc]
  simp only [tail_cons, Nat.add_comm 1, take_succ_cons, drop_succ_cons,
    take_literal, drop_literal]

/-- A turn on a doubled percent sign and the text after it. -/
theorem vcbprintfLoop_percent :
    vcbprintfLoop sink (fuel + 1) (ch '%' :: ch '%' :: rest) args written st =
      emit sink written st (ch '%' :: rest.takeWhile (· ≠ ch '%')) fun st written =>
        vcbprintfLoop sink fuel (rest.dropWhile (· ≠ ch '%')) args written st := by
  rw [vcbprintfLoop.eq_def]
  dsimp only
  rw [if_pos (by simp), if_pos rfl]
  simp only [tail_cons, Nat.add_comm 1, take_succ_cons, drop_succ_cons,
    take_literal, drop_literal]

/-- A turn on a percent sign at the end. -/
theorem vcbprintfLoop_dangling :
    vcbprintfLoop sink (fuel + 1) [ch '%'] args written st =
      emit sink written st [ch '%'] fun st written =>
        vcbprintfLoop sink fuel [] args written st := by
  rw [vcbprintfLoop, if_neg (by simp)]

/-- A turn on what no argument belongs to. -/
theorem vcbprintfLoop_unsupported (hd : d ≠ ch '%') (h : conversion d args = .unsupported) :
    vcbprintfLoop sink (fuel + 1) (ch '%' :: d :: after) args written st =
      emit sink written st (ch '%' :: d :: after) fun st written =>
        vcbprintfLoop sink fuel [] args written st := by
  rw [vcbprintfLoop.eq_def]
  dsimp only
  rw [if_neg (by simp [hd]), h]

/-- A turn on a conversion. -/
theorem vcbprintfLoop_conversion (hd : d ≠ ch '%') {text : List Chr} {args' : List Arg}
    (h : conversion d args = .text text args') :
    vcbprintfLoop sink (fuel + 1) (ch '%' :: d :: after) args written st =
      emit sink written st text fun st written =>
        vcbprintfLoop sink fuel after args' written st := by
  rw [vcbprintfLoop.eq_def]
  dsimp only
  rw [if_neg (by simp [hd]), h]

end

/-- A turn on text passes it, and goes on behind it. -/
theorem literal_passes (hacc : Accepting sink) (hw : written ≤ intMax) {fuel : Nat} {c : Chr}
    {rest : List Chr} {args : List Arg} {ps : List (List Chr)}
    (hps : (pieces rest args).map (joinText c rest) = some ps)
    (ih : ∀ {format : List Chr} {ps : List (List Chr)} {written : Nat} {st : σ},
      format.length ≤ rest.length → pieces format args = some ps → written ≤ intMax →
        Passes sink ps written st (vcbprintfLoop sink fuel format args written st)) :
    Passes sink ps written st
      (emit sink written st (c :: rest.takeWhile (· ≠ ch '%')) fun st written =>
        vcbprintfLoop sink fuel (rest.dropWhile (· ≠ ch '%')) args written st) := by
  rw [text_pieces, Option.map_eq_some_iff] at hps
  obtain ⟨more, hmore, rfl⟩ := hps
  refine emit_passes hacc hw fun hfits => ?_
  exact ih (length_dropWhile_le _ rest) hmore hfits

/-- The loop passes the pieces of what is left of the format. -/
theorem loop_passes (hacc : Accepting sink) {fuel : Nat} {format : List Chr} {args : List Arg}
    {ps : List (List Chr)} (hfuel : format.length ≤ fuel) (hps : pieces format args = some ps)
    (hw : written ≤ intMax) :
    Passes sink ps written st (vcbprintfLoop sink fuel format args written st) := by
  induction fuel generalizing format args written st ps with
  | zero =>
    rw [length_eq_zero_iff.mp (Nat.le_zero.mp hfuel), pieces] at hps
    injection hps with hps
    rw [← hps, vcbprintfLoop]
    exact passes_nil hw
  | succ fuel ih =>
    -- a turn that passes all that is left of the format
    have hlast : ∀ data, Passes sink [data] written st (emit sink written st data
        fun st written => vcbprintfLoop sink fuel [] args written st) := by
      intro data
      refine emit_passes hacc hw fun hfits => ?_
      exact ih (Nat.zero_le fuel) rfl hfits
    cases format with
    | nil =>
      rw [pieces] at hps
      injection hps with hps
      rw [← hps, vcbprintfLoop]
      exact passes_nil hw
    | cons c rest =>
      have hrest : rest.length ≤ fuel := Nat.le_of_succ_le_succ hfuel
      by_cases hc : c ≠ ch '%'
      · rw [pieces_cons_of_ne hc] at hps
        rw [vcbprintfLoop_literal hc]
        exact literal_passes hacc hw hps fun hle => ih (Nat.le_trans hle hrest)
      rw [Decidable.not_not] at hc
      subst hc
      cases rest with
      | nil =>
        rw [pieces] at hps
        injection hps with hps
        rw [← hps, vcbprintfLoop_dangling]
        exact hlast _
      | cons d after =>
        have hafter : after.length ≤ fuel := Nat.le_of_succ_le hrest
        by_cases hd : d = ch '%'
        · subst hd
          rw [pieces_percent] at hps
          rw [vcbprintfLoop_percent]
          exact literal_passes hacc hw hps fun hle => ih (Nat.le_trans hle hafter)
        rw [pieces_cons_cons, if_neg (by simp), if_neg hd] at hps
        cases hconv : isConversion d with
        | false =>
          rw [hconv, if_neg (by decide)] at hps
          injection hps with hps
          rw [vcbprintfLoop_unsupported hd (conversion_unsupported hconv), ← hps]
          exact hlast _
        | true =>
          rw [hconv, if_pos rfl] at hps
          cases args with
          | nil => cases hps
          | cons a args =>
            obtain ⟨text, htext, hmap⟩ := Option.bind_eq_some_iff.mp hps
            obtain ⟨more, hmore, rfl⟩ := Option.map_eq_some_iff.mp hmap
            rw [vcbprintfLoop_conversion hd (conversion_eq htext)]
            exact emit_passes hacc hw fun hfits => ih hafter hmore hfits

/-- The whole format. -/
theorem vcbprintf_passes (hacc : Accepting sink) (st : σ) {format : List Chr} {args : List Arg}
    {ps : List (List Chr)} (hps : pieces format args = some ps) :
    vcbprintf sink st format args = some (handed sink st (fitting 0 ps),
      if ps.flatten.length ≤ intMax then (ps.flatten.length : Int) else -1) := by
  have hpasses : Passes sink ps 0 st (vcbprintf sink st format args) :=
    loop_passes hacc (Nat.le_refl _) hps (Nat.zero_le _)
  rwa [Passes, Nat.zero_add] at hpasses

end

theorem accepting_bufferSink : Accepting bufferSink := fun _ _ => rfl

/-- `sprintf` stores what the sink gets, and a terminator unless the answer is an error. -/
theorem sprintf_passes (mem : Nat → Chr) (str : Nat) {format : List Chr} {args : List Arg}
    {ps : List (List Chr)} (hps : pieces format args = some ps) :
    sprintf mem str format args =
      if ps.flatten.length ≤ intMax then
        some (store mem str (ps.flatten ++ [0]), (ps.flatten.length : Int))
      else some (store mem str (fitting 0 ps).flatten, -1) := by
  rw [sprintf, vcbprintf_passes accepting_bufferSink (mem, str) hps, handed_bufferSink]
  by_cases hle : ps.flatten.length ≤ intMax
  · rw [fitting_eq (by omega)]
    simp only [if_pos hle, Int.natCast_nonneg, if_true, store_append]
  · simp only [if_neg hle]
    rfl

/-- Every format with matching arguments: an accepting sink gets the expansion piece by piece and
the answer is its length, if that is an `int`.  Of a longer expansion it gets the pieces before the
one with which the count would overflow and the answer is an error, and `sprintf` stores just those
pieces.  No buffer is overrun, and the numerals of an expansion stand for the arguments. -/
theorem formatted_output_exact {σ : Type} {sink : Sink σ} (hacc : Accepting sink) (st : σ)
    (mem : Nat → Chr) (str : Nat) {format : List Chr} {args : List Arg} {out : List Chr}
    (hout : expand format args = some out) :
    (∃ ps, pieces format args = some ps ∧ ps.flatten = out ∧
      (out.length ≤ intMax →
        vcbprintf sink st format args = some (handed sink st ps, (out.length : Int)) ∧
        sprintf mem str format args = some (store mem str (out ++ [0]), (out.length : Int))) ∧
      (intMax < out.length → ∃ passed piece later, ps = passed ++ piece :: later ∧
        passed.flatten.length ≤ intMax ∧ intMax < (passed ++ [piece]).flatten.length ∧
        vcbprintf sink st format args = some (handed sink st passed, -1) ∧
        sprintf mem str format args = some (store mem str passed.flatten, -1))) ∧
    (∀ v, ∃ ds, convert (ch 'd') (.int v) = some ds ∧ parseSigned ds = v.toInt) ∧
    (∀ v, ∃ ds, convert (ch 'u') (.int v) = some ds ∧ parse 10 ds = v.toNat) ∧
    (∀ v, ∃ ds, convert (ch 'x') (.int v) = some ds ∧ parse 16 ds = v.toNat) ∧
    ∀ v, ∃ ds, convert (ch 'p') (.ptr v) = some (ch '0' :: ch 'x' :: ds) ∧
      parse 16 ds = v.toNat := by
  rw [expand_eq, Option.map_eq_some_iff] at hout
  obtain ⟨ps, hps, rfl⟩ := hout
  have hsink := vcbprintf_passes hacc st hps
  have hstored := sprintf_passes mem str hps
  refine ⟨⟨ps, hps, rfl, ?_, ?_⟩, ?_, ?_, ?_, ?_⟩
  · intro hle
    rw [fitting_eq (by omega), if_pos hle] at hsink
    rw [if_pos hle] at hstored
    exact ⟨hsink, hstored⟩
  · intro hlt
    rw [if_neg (Nat.not_le_of_lt hlt)] at hsink hstored
    rw [← Nat.zero_add ps.flatten.length] at hlt
    obtain ⟨piece, later, hsplit, hle, hover⟩ := fitting_split (Nat.zero_le _) hlt
    rw [Nat.zero_add] at hle hover
    exact ⟨fitting 0 ps, piece, later, hsplit, hle, hover, hsink, hstored⟩
  · intro v
    exact ⟨signedNumeral v.toInt, rfl, parseSigned_signedNumeral v.toInt⟩
  · intro v
    exact ⟨numeral 10 v.toNat, rfl, parse_numeral decimal v.toNat⟩
  · intro v
    exact ⟨numeral 16 v.toNat, rfl, parse_numeral hexadecimal v.toNat⟩
  · intro v
    exact ⟨numeral 16 v.toNat, rfl, parse_numeral hexadecimal v.toNat⟩

/-- `sprintf(str, "%%%d!%", INT_MIN)`: the percent sign, the number, the text and the percent sign
at the end are pieces of their own. -/
theorem formatted_output_exact_intMin :
    expand ("%%%d!%".toList.map ch) [.int (BitVec.ofNat 32 (2 ^ 31))] =
        some ("%-2147483648!%".toList.map ch) ∧
      pieces ("%%%d!%".toList.map ch) [.int (BitVec.ofNat 32 (2 ^ 31))] =
        some (["%", "-2147483648", "!", "%"].map fun text => text.toList.map ch) ∧
      ∀ mem str, sprintf mem str ("%%%d!%".toList.map ch) [.int (BitVec.ofNat 32 (2 ^ 31))] =
        some (store mem str ("%-2147483648!%".toList.map ch ++ [0]), 14) := by
  refine ⟨by decide +kernel, by decide +kernel, ?_⟩
  intro mem str
  have hout : expand ("%%%d!%".toList.map ch) [.int (BitVec.ofNat 32 (2 ^ 31))] =
      some ("%-2147483648!%".toList.map ch) := by decide +kernel
  obtain ⟨_, _, _, hfits, _⟩ :=
    (formatted_output_exact accepting_bufferSink (mem, str) mem str hout).1
  exact (hfits (by decide +kernel)).2

theorem expand_string (s : List Chr) : expand [ch '%', ch 's'] [.str s] = some s := by
  rw [expand_eq, pieces_cons_cons, if_neg (by simp), if_neg (by decide), if_pos (by decide)]
  simp [convert, pieces]

theorem vcbprintf_string {σ : Type} (sink : Sink σ) (st : σ) {s : List Chr}
    (h : intMax < s.length) : vcbprintf sink st [ch '%', ch 's'] [.str s] = some (st, -1) := by
  have hconv : conversion (ch 's') [.str s] = .text s [] :=
    conversion_eq (by rw [convert, if_pos rfl])
  rw [vcbprintf, length_cons, vcbprintfLoop_conversion (by decide) hconv, emit,
    if_pos (Nat.lt_of_le_of_lt (Nat.sub_le intMax 0) h)]

/-- A string too long for an `int` is not passed, although the expansion is that string. -/
theorem long_string_not_passed :
    ∃ s : List Chr, intMax < s.length ∧ expand [ch '%', ch 's'] [.str s] = some s ∧
      vcbprintf logSink [] [ch '%', ch 's'] [.str s] = some ([], -1) := by
  have hlen : intMax < (replicate (intMax + 1) (ch 'a')).length := by
    rw [length_replicate]
    exact Nat.lt_succ_self intMax
  exact ⟨_, hlen, expand_string _, vcbprintf_string logSink [] hlen⟩

end Aeryk.Libc
