/-
Character references: `&amp;`, `&#39;`, `&#x27;`.

`decode` replaces the references it knows and copies everything else, so an
`&` that begins nothing known stays as it is. `escape` writes the five
characters that mean something in markup as references.
-/
import RichContent.Text.Digits

namespace RichContent.Text

/-! ## Reading -/

def namedReferences : List (Text × Char) :=
  [("amp".toList, '&'), ("lt".toList, '<'), ("gt".toList, '>'), ("quot".toList, '"'),
    ("apos".toList, '\''), ("nbsp".toList, '\u00a0')]

/-- A number of at least one digit, behind an optional plus sign. -/
def number? (base : Nat) : Text → Option Nat
  | [] => none
  | '+' :: [] => none
  | '+' :: rest => digitsValue? base 0 rest
  | t => digitsValue? base 0 t

/-- The character with a number, where the number is a Unicode scalar value. -/
def scalar? (n : Nat) : Option Char :=
  if n.isValidChar then some (Char.ofNat n) else none

/-- The character that a reference stands for, given what is between `&` and `;`. -/
def referent? : Text → Option Char
  | '#' :: 'x' :: digits => (number? 16 digits).bind scalar?
  | '#' :: 'X' :: digits => (number? 16 digits).bind scalar?
  | '#' :: digits => (number? 10 digits).bind scalar?
  | name => namedReferences.lookup name

def isReferenceChar (c : Char) : Bool := c.isAlphanum || c == '#' || c == '+'

/-- Reads a reference whose `&` is already taken: its character and what follows. -/
def reference? (t : Text) : Option (Char × Text) :=
  match t.dropWhile isReferenceChar with
  | ';' :: rest => (referent? (t.takeWhile isReferenceChar)).map fun c => (c, rest)
  | _ => none

theorem length_lt_of_reference? {t rest : Text} {c : Char} (h : reference? t = some (c, rest)) :
    rest.length < t.length := by
  rw [reference?] at h
  split at h
  · rename_i r heq
    obtain ⟨_, _, hr⟩ := Option.map_eq_some_iff.1 h
    obtain ⟨_, rfl⟩ := Prod.mk.inj hr
    have := (List.dropWhile_suffix isReferenceChar (l := t)).length_le
    rw [heq, List.length_cons] at this
    omega
  · simp at h

/-- The text with every known reference replaced by its character. -/
def decode : Text → Text
  | [] => []
  | c :: rest =>
    if c = '&' then
      match _h : reference? rest with
      | some (d, after) => d :: decode after
      | none => '&' :: decode rest
    else c :: decode rest
termination_by t => t.length
decreasing_by
  · have := length_lt_of_reference? _h
    simp only [List.length_cons]
    omega
  · simp
  · simp

/-! ## Writing -/

def escapeChar (c : Char) : Text :=
  if c = '&' then "&amp;".toList
  else if c = '<' then "&lt;".toList
  else if c = '>' then "&gt;".toList
  else if c = '"' then "&quot;".toList
  else if c = '\'' then "&#39;".toList
  else [c]

/-- The text written so that it is text, or a quoted value, in any markup. -/
def escape (t : Text) : Text := t.flatMap escapeChar

end RichContent.Text
