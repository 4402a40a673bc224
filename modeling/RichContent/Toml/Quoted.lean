/-
Quoted texts of TOML: between double quotes with escapes, between single
quotes as they stand, and either over several lines between three quotes.

In a text over several lines a line feed stands for every line ending, one
right after the opening quotes is dropped, and a backslash at the end of a
line drops all blanks up to the next character. Up to two quotes may stand
right before the closing ones.
-/
import RichContent.Text.Digits

namespace RichContent.Toml

open Text

def isBlank (c : Char) : Bool := c == ' ' || c == '\t'

/-- The characters that may stand in a comment or a quoted text. -/
def isPrintable (c : Char) : Bool := c == '\t' || (c.toNat ≥ 0x20 && c.toNat != 0x7F)

/-- What follows a line ending at the front of a text. -/
def newline? : Text → Option Text
  | '\n' :: rest => some rest
  | '\r' :: '\n' :: rest => some rest
  | _ => none

def codePoint? (count : Nat) (t : Text) : Option (Char × Text) := do
  let digits := t.take count
  if digits.length < count then none
  let n ← digitsValue? 16 0 digits
  if n.isValidChar then pure (Char.ofNat n, t.drop count) else none

def escaped? : Text → Option (Char × Text)
  | [] => none
  | c :: rest =>
    match c with
    | 'b' => some ('\x08', rest)
    | 'f' => some ('\x0c', rest)
    | 'n' => some ('\n', rest)
    | 'r' => some ('\r', rest)
    | 't' => some ('\t', rest)
    | '\\' => some ('\\', rest)
    | '"' => some ('"', rest)
    | 'u' => codePoint? 4 rest
    | 'U' => codePoint? 8 rest
    | _ => none

/-- A text between double quotes, after the first. Each step uses up one unit of `fuel`. -/
def basic? : (fuel : Nat) → Text → Option (Text × Text)
  | 0, _ => none
  | _ + 1, [] => none
  | fuel + 1, c :: rest =>
    if c = '"' then some ([], rest)
    else if c = '\\' then do
      let (c, rest) ← escaped? rest
      let (t, rest) ← basic? fuel rest
      pure (c :: t, rest)
    else if isPrintable c then (basic? fuel rest).map fun (t, rest) => (c :: t, rest)
    else none

def literal? (t : Text) : Option (Text × Text) :=
  let inner := t.takeWhile fun c => c != '\'' && isPrintable c
  match t.dropWhile fun c => c != '\'' && isPrintable c with
  | '\'' :: rest => some (inner, rest)
  | _ => none

/-- What is left of a text after blanks and line endings; a carriage return alone is neither. -/
def skipLines : (fuel : Nat) → Text → Text
  | 0, t => t
  | fuel + 1, t =>
    let t := t.dropWhile isBlank
    match newline? t with
    | some rest => skipLines fuel rest
    | none => t

def joinedLine? (t : Text) : Option Text :=
  (newline? (t.dropWhile isBlank)).map fun rest => skipLines rest.length.succ rest

/-- The end of a text over several lines, at its first quote: the quotes that belong to the text
and what follows the closing ones; none if these quotes do not close it. -/
def closing? (quote : Char) (t : Text) : Option (Text × Text) :=
  let count := (t.takeWhile (· == quote)).length
  if count < 3 then none
  else
    let own := min (count - 3) 2
    some (List.replicate own quote, t.drop (own + 3))

/-- A text over several lines, after its opening quotes. Each step uses up one unit of `fuel`. -/
def lines? (quote : Char) (escapes : Bool) : (fuel : Nat) → Text → Option (Text × Text)
  | 0, _ => none
  | _ + 1, [] => none
  | fuel + 1, c :: rest =>
    if c = quote then
      match closing? quote (c :: rest) with
      | some found => some found
      | none => (lines? quote escapes fuel rest).map fun (t, rest) => (c :: t, rest)
    else if c = '\\' ∧ escapes then
      match joinedLine? rest with
      | some rest => lines? quote escapes fuel rest
      | none => do
        let (c, rest) ← escaped? rest
        let (t, rest) ← lines? quote escapes fuel rest
        pure (c :: t, rest)
    else
      match newline? (c :: rest) with
      | some rest => (lines? quote escapes fuel rest).map fun (t, rest) => ('\n' :: t, rest)
      | none =>
        if isPrintable c then
          (lines? quote escapes fuel rest).map fun (t, rest) => (c :: t, rest)
        else none

def dropNewline (t : Text) : Text := (newline? t).getD t

def quoted? : Text → Option (Text × Text)
  | '"' :: rest => basic? rest.length.succ rest
  | '\'' :: rest => literal? rest
  | _ => none

def anyQuoted? (t : Text) : Option (Text × Text) :=
  match t with
  | '"' :: '"' :: '"' :: rest => lines? '"' true rest.length.succ (dropNewline rest)
  | '\'' :: '\'' :: '\'' :: rest => lines? '\'' false rest.length.succ (dropNewline rest)
  | _ => quoted? t

end RichContent.Toml
