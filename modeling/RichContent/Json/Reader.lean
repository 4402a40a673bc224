/-
Reading JSON: the value that a text writes, if it writes one and nothing else.

A number with a fraction or an exponent is a floating-point number, and so is a
whole number that has no place in 64 bits. Of several fields with one key the
last stays.
-/
import RichContent.Json.Basic
import RichContent.Text.Digits

namespace RichContent.Json

open Text

def isBlank (c : Char) : Bool := c == ' ' || c == '\t' || c == '\n' || c == '\r'

def skipBlanks (t : Text) : Text := t.dropWhile isBlank

/-! ## Strings -/

/-- Four digits to the base sixteen. -/
def readUnit? : Text → Option (Nat × Text)
  | a :: b :: c :: d :: rest => do
    let a ← digitValue? a
    let b ← digitValue? b
    let c ← digitValue? c
    let d ← digitValue? d
    pure (((a * 16 + b) * 16 + c) * 16 + d, rest)
  | _ => none

def simpleEscape? (c : Char) : Option Char :=
  match c with
  | '"' => some '"'
  | '\\' => some '\\'
  | '/' => some '/'
  | 'b' => some '\x08'
  | 'f' => some '\x0c'
  | 'n' => some '\n'
  | 'r' => some '\r'
  | 't' => some '\t'
  | _ => none

/-- The character after a backslash and `u`: one unit, or two that are a surrogate pair. -/
def readEscaped? (t : Text) : Option (Char × Text) := do
  let (high, rest) ← readUnit? t
  if 0xD800 ≤ high ∧ high < 0xDC00 then
    match rest with
    | '\\' :: 'u' :: rest =>
      let (low, rest) ← readUnit? rest
      if 0xDC00 ≤ low ∧ low < 0xE000 then
        pure (Char.ofNat (0x10000 + (high - 0xD800) * 0x400 + (low - 0xDC00)), rest)
      else none
    | _ => none
  else if 0xDC00 ≤ high ∧ high < 0xE000 then none
  else pure (Char.ofNat high, rest)

/-- A string after its first quote, with what follows. Each step uses up one unit of `fuel`. -/
def readText? : (fuel : Nat) → Text → Option (Text × Text)
  | 0, _ => none
  | _ + 1, [] => none
  | fuel + 1, c :: rest =>
    if c = '"' then some ([], rest)
    else if c = '\\' then
      match rest with
      | 'u' :: rest => do
        let (c, rest) ← readEscaped? rest
        let (t, rest) ← readText? fuel rest
        pure (c :: t, rest)
      | c :: rest => do
        let c ← simpleEscape? c
        let (t, rest) ← readText? fuel rest
        pure (c :: t, rest)
      | [] => none
    else if c.toNat < 32 then none
    else do
      let (t, rest) ← readText? fuel rest
      pure (c :: t, rest)

/-! ## Numbers -/

def readDigits? (t : Text) : Option (Text × Text) :=
  let digits := t.takeWhile Char.isDigit
  if digits = [] then none else some (digits, t.dropWhile Char.isDigit)

/-- The whole numbers that have a place in 64 bits, with or without a sign. -/
def fitsWord (n : Int) : Bool := -9223372036854775808 ≤ n && n ≤ 18446744073709551615

def readExponent? : Text → Option (Option Int × Text)
  | c :: rest =>
    if c = 'e' ∨ c = 'E' then
      match rest with
      | '-' :: rest => do
        let (digits, rest) ← readDigits? rest
        pure (some (-(decimalValue digits : Int)), rest)
      | '+' :: rest => do
        let (digits, rest) ← readDigits? rest
        pure (some (decimalValue digits : Int), rest)
      | rest => do
        let (digits, rest) ← readDigits? rest
        pure (some (decimalValue digits : Int), rest)
    else some (none, c :: rest)
  | [] => some (none, [])

def readFraction? : Text → Option (Option Text × Text)
  | '.' :: rest => do
    let (digits, rest) ← readDigits? rest
    pure (some digits, rest)
  | rest => some (none, rest)

/-- A number without its sign, with what follows. -/
def readNumber? (negative : Bool) (t : Text) : Option (Json × Text) := do
  let (whole, rest) ← readDigits? t
  if whole.length > 1 ∧ whole.head? = some '0' then none
  let (fraction, rest) ← readFraction? rest
  let (exponent, rest) ← readExponent? rest
  let n := decimalValue whole
  let signed : Int := if negative then -(n : Int) else n
  if fraction.isNone && exponent.isNone && fitsWord signed && !(negative && n == 0) then
    pure (int signed, rest)
  else
    let fraction := fraction.getD []
    let x ← Binary64.ofDecimal negative
      ⟨decimalValue (whole ++ fraction), exponent.getD 0 - fraction.length⟩
    pure (float x, rest)

/-! ## Values -/

mutual

/-- A value, with what follows. Each step uses up one unit of `fuel`. -/
def read? (fuel : Nat) (t : Text) : Option (Json × Text) :=
  match fuel with
  | 0 => none
  | fuel + 1 =>
    match skipBlanks t with
    | 'n' :: 'u' :: 'l' :: 'l' :: rest => some (null, rest)
    | 't' :: 'r' :: 'u' :: 'e' :: rest => some (bool true, rest)
    | 'f' :: 'a' :: 'l' :: 's' :: 'e' :: rest => some (bool false, rest)
    | '"' :: rest => (readText? (fuel + 1) rest).map fun (t, rest) => (str t, rest)
    | '[' :: rest =>
      match skipBlanks rest with
      | ']' :: rest => some (arr [], rest)
      | rest => (readItems? fuel rest).map fun (items, rest) => (arr items, rest)
    | '\x7b' :: rest =>
      match skipBlanks rest with
      | '\x7d' :: rest => some (obj [], rest)
      | rest => (readFields? fuel rest).map fun (fields, rest) => (obj (Table.ofList fields), rest)
    | '-' :: rest => readNumber? true rest
    | rest => readNumber? false rest

def readItems? (fuel : Nat) (t : Text) : Option (List Json × Text) :=
  match fuel with
  | 0 => none
  | fuel + 1 => do
    let (item, rest) ← read? fuel t
    match skipBlanks rest with
    | ',' :: rest =>
      let (items, rest) ← readItems? fuel rest
      pure (item :: items, rest)
    | ']' :: rest => pure ([item], rest)
    | _ => none

def readFields? (fuel : Nat) (t : Text) : Option (List (Text × Json) × Text) :=
  match fuel with
  | 0 => none
  | fuel + 1 =>
    match skipBlanks t with
    | '"' :: rest => do
      let (key, rest) ← readText? (fuel + 1) rest
      match skipBlanks rest with
      | ':' :: rest =>
        let (value, rest) ← read? fuel rest
        match skipBlanks rest with
        | ',' :: rest =>
          let (fields, rest) ← readFields? fuel rest
          pure ((key, value) :: fields, rest)
        | '\x7d' :: rest => pure ([(key, value)], rest)
        | _ => none
      | _ => none
    | _ => none

end

def parse? (t : Text) : Option Json :=
  match read? (2 * t.length + 2) t with
  | some (value, rest) => if skipBlanks rest = [] then some value else none
  | none => none

end RichContent.Json
