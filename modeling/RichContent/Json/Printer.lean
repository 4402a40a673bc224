/-
The text of JSON values: in one line without blanks, or with every item on a
line of its own.

In strings only quotes, backslashes and control characters are escaped. A
floating-point number is written in the fewest digits that read back, and it
always shows a point or an exponent.
-/
import RichContent.Json.Basic
import RichContent.Text.Digits

namespace RichContent.Json

open Text

/-! ## Strings and numbers -/

def hexDigit (n : Nat) : Char := Nat.digitChar n

def escapeChar (c : Char) : Text :=
  if c = '"' then ['\\', '"']
  else if c = '\\' then ['\\', '\\']
  else if c = '\n' then ['\\', 'n']
  else if c = '\r' then ['\\', 'r']
  else if c = '\t' then ['\\', 't']
  else if c = '\x08' then ['\\', 'b']
  else if c = '\x0c' then ['\\', 'f']
  else if c.toNat < 32 then
    ['\\', 'u', '0', '0', hexDigit (c.toNat / 16), hexDigit (c.toNat % 16)]
  else [c]

def printText (t : Text) : Text := '"' :: t.flatMap escapeChar ++ ['"']

def printInt (n : Int) : Text :=
  if n < 0 then '-' :: numeral n.natAbs else numeral n.natAbs

/-- How floating-point numbers are laid out: the range of the decimal point, counted from the
first digit, in which there is no exponent. -/
structure FloatFormat where
  lowestPoint : Int
  highestPoint : Int

/-- Up to sixteen digits before the point, and up to four zeros after it, are written out. -/
def floatFormat : FloatFormat := ⟨-4, 16⟩

def zeros (n : Nat) : Text := List.replicate n '0'

/-- An exponent, always with a sign. -/
def printExponent (n : Int) : Text := 'e' :: (if 0 ≤ n then ['+'] else []) ++ printInt n

def printDecimal (f : FloatFormat) (x : Decimal) : Text :=
  let digits := numeral x.digits
  let point : Int := digits.length + x.exponent
  if 0 ≤ x.exponent ∧ point ≤ f.highestPoint then digits ++ zeros x.exponent.toNat ++ ['.', '0']
  else if 0 < point ∧ point ≤ f.highestPoint then
    digits.take point.toNat ++ '.' :: digits.drop point.toNat
  else if f.lowestPoint ≤ point ∧ point ≤ 0 then '0' :: '.' :: zeros (-point).toNat ++ digits
  else
    let fraction := digits.drop 1
    digits.take 1 ++ (if fraction = [] then [] else '.' :: fraction) ++ printExponent (point - 1)

def printFloat (x : Binary64) : Text :=
  let number := if x.mantissa = 0 then ['0', '.', '0'] else printDecimal floatFormat x.shortest
  if x.negative then '-' :: number else number

/-! ## In one line -/

mutual

/-- The value without blanks. -/
def print : Json → Text
  | null => "null".toList
  | bool true => "true".toList
  | bool false => "false".toList
  | int n => printInt n
  | float x => printFloat x
  | str t => printText t
  | arr [] => ['[', ']']
  | arr (item :: rest) => '[' :: print item ++ printItems rest
  | obj [] => ['\x7b', '\x7d']
  | obj (field :: rest) => '\x7b' :: printField field ++ printFields rest

/-- The items that follow the first, and the bracket. -/
def printItems : List Json → Text
  | [] => [']']
  | item :: rest => ',' :: print item ++ printItems rest

def printField : Text × Json → Text
  | (key, value) => printText key ++ ':' :: print value

def printFields : List (Text × Json) → Text
  | [] => ['\x7d']
  | field :: rest => ',' :: printField field ++ printFields rest

end

/-! ## In lines -/

/-- A line break, and the blanks before what is nested so deep. -/
def newline (depth : Nat) : Text := '\n' :: List.replicate (2 * depth) ' '

mutual

/-- The value with every item and every field on a line of its own. -/
def pretty (depth : Nat) : Json → Text
  | null => "null".toList
  | bool true => "true".toList
  | bool false => "false".toList
  | int n => printInt n
  | float x => printFloat x
  | str t => printText t
  | arr [] => ['[', ']']
  | arr (item :: rest) =>
    '[' :: newline (depth + 1) ++ pretty (depth + 1) item ++ prettyItems depth rest
  | obj [] => ['\x7b', '\x7d']
  | obj (field :: rest) =>
    '\x7b' :: newline (depth + 1) ++ prettyField (depth + 1) field ++ prettyFields depth rest

def prettyItems (depth : Nat) : List Json → Text
  | [] => newline depth ++ [']']
  | item :: rest =>
    ',' :: newline (depth + 1) ++ pretty (depth + 1) item ++ prettyItems depth rest

def prettyField (depth : Nat) : Text × Json → Text
  | (key, value) => printText key ++ ':' :: ' ' :: pretty depth value

def prettyFields (depth : Nat) : List (Text × Json) → Text
  | [] => newline depth ++ ['\x7d']
  | field :: rest =>
    ',' :: newline (depth + 1) ++ prettyField (depth + 1) field ++ prettyFields depth rest

end

end RichContent.Json
