/-
Numbers, truth values, dates and times of TOML, as they are written.

Underscores may stand between digits. A whole number fits in 64 bits with its
sign; one written to the base ten has no zero in front. A number with a point
or an exponent that is too great is refused, unless it is negative, when it is
infinite.
-/
import RichContent.Toml.Value

namespace RichContent.Toml

open Text

/-- The digits that follow a digit, underscores left out. An underscore has a digit after it. -/
def moreDigits? (isDigit : Char → Bool) : Text → Option (Text × Text)
  | [] => some ([], [])
  | '_' :: d :: rest =>
    if isDigit d then (moreDigits? isDigit rest).map fun (ds, rest) => (d :: ds, rest) else none
  | ['_'] => none
  | c :: rest =>
    if isDigit c then (moreDigits? isDigit rest).map fun (ds, rest) => (c :: ds, rest)
    else some ([], c :: rest)

def digits? (isDigit : Char → Bool) : Text → Option (Text × Text)
  | [] => none
  | c :: rest =>
    if isDigit c then (moreDigits? isDigit rest).map fun (ds, rest) => (c :: ds, rest) else none

/-- Digits of a number to the base ten, without a zero in front of others. -/
def decimal? : Text → Option (Text × Text)
  | '0' :: rest => some (['0'], rest)
  | t => digits? Char.isDigit t

/-- A sign, if there is one: is it a minus, and what follows. -/
def sign : Text → Bool × Text
  | '+' :: rest => (false, rest)
  | '-' :: rest => (true, rest)
  | t => (false, t)

/-- A whole number that fits in 64 bits. -/
def word? (n : Int) : Option Int :=
  if -9223372036854775808 ≤ n ∧ n ≤ 9223372036854775807 then some n else none

/-- A number written to another base, after its mark. -/
def based? (base : Nat) (t : Text) : Option (Value × Text) := do
  let (ds, rest) ← digits? (fun c => (digitIn? base c).isSome) t
  let n ← digitsValue? base 0 ds
  let n ← word? n
  pure (.int n, rest)

def exponent? : Text → Option (Option Int × Text)
  | [] => some (none, [])
  | c :: rest =>
    if c = 'e' ∨ c = 'E' then do
      let (negative, t) := sign rest
      let (ds, t) ← digits? Char.isDigit t
      let n : Int := decimalValue ds
      pure (some (if negative then -n else n), t)
    else some (none, c :: rest)

def fraction? : Text → Option (Option Text × Text)
  | '.' :: rest => (digits? Char.isDigit rest).map fun (ds, rest) => (some ds, rest)
  | t => some (none, t)

def float? (negative : Bool) (x : Decimal) : Option Value :=
  match Binary64.ofDecimal negative x with
  | some x => some (.float (some x))
  | none => if negative then some (.float none) else none

def number? (negative : Bool) (t : Text) : Option (Value × Text) := do
  let (whole, t) ← decimal? t
  let (fraction, t) ← fraction? t
  let (exponent, t) ← exponent? t
  if fraction.isNone && exponent.isNone then
    let n : Int := decimalValue whole
    let n ← word? (if negative then -n else n)
    pure (.int n, t)
  else
    let fraction := fraction.getD []
    let v ← float? negative
      ⟨decimalValue (whole ++ fraction), exponent.getD 0 - fraction.length⟩
    pure (v, t)

def special? (t : Text) : Option (Value × Text) :=
  match after? "inf".toList t with
  | some rest => some (.float none, rest)
  | none => (after? "nan".toList t).map fun rest => (.float none, rest)

def numeric? (t : Text) : Option (Value × Text) :=
  if Moment.looksLikeDate t then (Moment.dated? t).map fun (m, rest) => (.moment m, rest)
  else if Moment.looksLikeTime t then
    (Moment.time? t).map fun (clock, rest) => (.moment (.time clock), rest)
  else
    match t with
    | '0' :: 'x' :: rest => based? 16 rest
    | '0' :: 'o' :: rest => based? 8 rest
    | '0' :: 'b' :: rest => based? 2 rest
    | _ =>
      let (negative, rest) := sign t
      match special? rest with
      | some found => some found
      | none => number? negative rest

def truth? (t : Text) : Option (Value × Text) :=
  match after? "true".toList t with
  | some rest => some (.bool true, rest)
  | none => (after? "false".toList t).map fun rest => (.bool false, rest)

end RichContent.Toml
