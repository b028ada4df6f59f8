import Mathlib.Data.Nat.Digits.Defs
import Aeryk.Lib.Cyclic

/-!
# Formatted output

`__vcbprintf` of `format.c` and `sprintf`.  The core walks over the format string and hands pieces
of text to a sink, which may refuse one.  C strings are lists without their terminators, and the
variable arguments are a list of values of the types they are passed with.

A store by `utoa` beyond the end of its buffer and an argument of another type than the format asks
for have no defined result, which is `none`.  `expand` is what the output is to be, and `pieces`
says where it may be cut.
-/

namespace Aeryk.Libc

open Lib

abbrev Chr := BitVec 8

def ch (c : Char) : Chr := BitVec.ofNat 8 c.toNat

def intMax : Nat := 2 ^ 31 - 1

/-- A variable argument: an `int` or `unsigned int`, a pointer, or a string. -/
inductive Arg
  | int (v : BitVec 32)
  | ptr (v : BitVec 64)
  | str (s : List Chr)

/-! ## Numbers -/

/-- `digits[k]` of `utoa`. -/
def digit (uppercase : Bool) (k : Nat) : Chr :=
  ch ((if uppercase then "0123456789ABCDEF" else "0123456789abcdef").toList.getD k '0')

/-- The first loop of `utoa`: the digits in `tmp`, the last one first, with `room` places left. -/
def utoaTmp (base : Nat) (uppercase : Bool) : Nat → Nat → Option (List Chr)
  | 0, _ => none
  | room + 1, value =>
    let d := digit uppercase (value % base)
    if value / base ≠ 0 then (utoaTmp base uppercase room (value / base)).map (d :: ·)
    else some [d]

/-- `utoa` into a buffer with `room` places. -/
def utoa (value base : Nat) (uppercase : Bool) (room : Nat) : Option (List Chr) :=
  match utoaTmp base uppercase 32 value with
  | none => none
  | some tmp => if tmp.length ≤ room then some tmp.reverse else none

/-- `(num < 0) ? -(unsigned long)num : (unsigned long)num` -/
def magnitude (num : Int) : Nat :=
  if num < 0 then ((2 ^ 64 - num % 2 ^ 64) % 2 ^ 64).toNat else (num % 2 ^ 64).toNat

/-! ## The core -/

inductive Conversion
  /-- Not a conversion. -/
  | unsupported
  /-- A wrong argument, or a store beyond a buffer. -/
  | undefined
  /-- The text of an argument, and the other arguments. -/
  | text (data : List Chr) (args : List Arg)

/-- The text of an argument, if it is defined. -/
def Conversion.of (data : Option (List Chr)) (args : List Arg) : Conversion :=
  match data with
  | none => .undefined
  | some data => .text data args

/-- `va_arg(parameters, int)` or `unsigned int` -/
def vaInt (args : List Arg) (text : BitVec 32 → Option (List Chr)) : Conversion :=
  match args with
  | .int v :: args => .of (text v) args
  | _ => .undefined

/-- `va_arg(parameters, void *)` -/
def vaPtr (args : List Arg) (text : BitVec 64 → Option (List Chr)) : Conversion :=
  match args with
  | .ptr v :: args => .of (text v) args
  | _ => .undefined

/-- `va_arg(parameters, const char *)` -/
def vaStr (args : List Arg) (text : List Chr → Option (List Chr)) : Conversion :=
  match args with
  | .str s :: args => .of (text s) args
  | _ => .undefined

/-- The branches for the conversions, with the sizes of their buffers. -/
def conversion (d : Chr) (args : List Arg) : Conversion :=
  if d = ch 'c' then vaInt args fun v => some [v.setWidth 8]
  else if d = ch 'p' then
    vaPtr args fun v => (utoa v.toNat 16 false 16).map fun ds => ch '0' :: ch 'x' :: ds
  else if d = ch 'd' then
    vaInt args fun v =>
      if v.toInt < 0 then (utoa (magnitude v.toInt) 10 false 11).map fun ds => ch '-' :: ds
      else utoa (magnitude v.toInt) 10 false 12
  else if d = ch 'u' then vaInt args fun v => utoa v.toNat 10 false 10
  else if d = ch 'x' then vaInt args fun v => utoa v.toNat 16 false 8
  else if d = ch 's' then vaStr args fun s => some s
  else .unsupported

section

variable {σ : Type}

/-- A sink takes a piece of text, or refuses it. -/
abbrev Sink (σ : Type) := σ → List Chr → σ × Bool

/-- The end of every branch: the text goes to the sink unless the count would overflow. -/
def emit (sink : Sink σ) (written : Nat) (st : σ) (data : List Chr)
    (next : σ → Nat → Option (σ × Int)) : Option (σ × Int) :=
  if intMax - written < data.length then some (st, -1)
  else if (sink st data).2 then next (sink st data).1 (written + data.length)
  else some ((sink st data).1, -1)

/-- The loop of `__vcbprintf`, with at most `fuel` turns. -/
def vcbprintfLoop (sink : Sink σ) : Nat → List Chr → List Arg → Nat → σ → Option (σ × Int)
  | 0, _, _, written, st => some (st, written)
  | _ + 1, [], _, written, st => some (st, written)
  | fuel + 1, c :: rest, args, written, st =>
    if c ≠ ch '%' ∨ rest.head? = some (ch '%') then
      let format := if c = ch '%' then rest else c :: rest
      let amount := 1 + (format.tail.takeWhile (· ≠ ch '%')).length
      emit sink written st (format.take amount) fun st written =>
        vcbprintfLoop sink fuel (format.drop amount) args written st
    else
      match rest with
      | [] => emit sink written st [c] fun st written =>
        vcbprintfLoop sink fuel [] args written st
      | d :: after =>
        match conversion d args with
        | .unsupported => emit sink written st (c :: d :: after) fun st written =>
          vcbprintfLoop sink fuel [] args written st
        | .undefined => none
        | .text data args => emit sink written st data fun st written =>
          vcbprintfLoop sink fuel after args written st

/-- `__vcbprintf`: every turn of the loop takes a character off the format. -/
def vcbprintf (sink : Sink σ) (st : σ) (format : List Chr) (args : List Arg) : Option (σ × Int) :=
  vcbprintfLoop sink format.length format args 0 st

end

def logSink : Sink (List Chr) := fun st data => (st ++ data, true)

/-- `buffer_sink`: the bytes go to memory, and the pointer moves on. -/
def bufferSink : Sink ((Nat → Chr) × Nat) := fun st data =>
  ((store st.1 st.2 data, st.2 + data.length), true)

/-- `sprintf`: memory afterwards, and the answer. -/
def sprintf (mem : Nat → Chr) (str : Nat) (format : List Chr) (args : List Arg) :
    Option ((Nat → Chr) × Int) :=
  match vcbprintf bufferSink (mem, str) format args with
  | none => none
  | some (ctx, written) =>
    some (if 0 ≤ written then store ctx.1 ctx.2 [0] else ctx.1, written)

/-! ## The reference -/

def numeral (base n : Nat) : List Chr := (Nat.toDigits base n).map ch

def signedNumeral (n : Int) : List Chr :=
  if n < 0 then ch '-' :: numeral 10 n.natAbs else numeral 10 n.natAbs

def isConversion (d : Chr) : Bool :=
  d = ch 'c' || d = ch 'p' || d = ch 'd' || d = ch 'u' || d = ch 'x' || d = ch 's'

/-- The text of an argument, if it is of the type of the conversion. -/
def convert (d : Chr) : Arg → Option (List Chr)
  | .int v =>
    if d = ch 'c' then some [v.setWidth 8]
    else if d = ch 'd' then some (signedNumeral v.toInt)
    else if d = ch 'u' then some (numeral 10 v.toNat)
    else if d = ch 'x' then some (numeral 16 v.toNat)
    else none
  | .ptr v => if d = ch 'p' then some (ch '0' :: ch 'x' :: numeral 16 v.toNat) else none
  | .str s => if d = ch 's' then some s else none

/-- The expansion of a format with its arguments, if they match. -/
def expand : List Chr → List Arg → Option (List Chr)
  | [], _ => some []
  | [c], _ => some [c]
  | c :: d :: rest, args =>
    if c ≠ ch '%' then (expand (d :: rest) args).map (c :: ·)
    else if d = ch '%' then (expand rest args).map (ch '%' :: ·)
    else if isConversion d then
      match args with
      | [] => none
      | a :: args => (convert d a).bind fun text => (expand rest args).map (text ++ ·)
    else some (c :: d :: rest)

/-- Puts a character in front of the text that the rest of a format starts with, if it does. -/
def joinText (c : Chr) (rest : List Chr) : List (List Chr) → List (List Chr)
  | [] => [[c]]
  | text :: ps =>
    if rest.takeWhile (· ≠ ch '%') = [] then [c] :: text :: ps else (c :: text) :: ps

/-- The pieces of an expansion: a run of text, which a doubled percent sign may start, a converted
argument, or all that is left behind a percent sign that means nothing. -/
def pieces : List Chr → List Arg → Option (List (List Chr))
  | [], _ => some []
  | [c], _ => some [[c]]
  | c :: d :: rest, args =>
    if c ≠ ch '%' then (pieces (d :: rest) args).map (joinText c (d :: rest))
    else if d = ch '%' then (pieces rest args).map (joinText (ch '%') rest)
    else if isConversion d then
      match args with
      | [] => none
      | a :: args => (convert d a).bind fun text => (pieces rest args).map (text :: ·)
    else some [c :: d :: rest]

def digitVal (d : Chr) : Nat :=
  if ch '0' ≤ d ∧ d ≤ ch '9' then d.toNat - (ch '0').toNat else d.toNat - (ch 'a').toNat + 10

def parse (base : Nat) (ds : List Chr) : Nat := ds.foldl (fun n d => n * base + digitVal d) 0

/-- The number that digits with a sign stand for. -/
def parseSigned (ds : List Chr) : Int :=
  match ds with
  | c :: rest => if c = ch '-' then -parse 10 rest else parse 10 ds
  | [] => 0

end Aeryk.Libc
