/-
Digits and the numbers that they write.
-/
import RichContent.Text.Basic

namespace RichContent.Text

/-- The value of a digit, where `a` to `f` count on from ten. -/
def digitValue? (c : Char) : Option Nat :=
  let n := c.toNat
  if '0'.toNat ≤ n ∧ n ≤ '9'.toNat then some (n - '0'.toNat)
  else if 'a'.toNat ≤ n ∧ n ≤ 'f'.toNat then some (n - 'a'.toNat + 10)
  else if 'A'.toNat ≤ n ∧ n ≤ 'F'.toNat then some (n - 'A'.toNat + 10)
  else none

def digitIn? (base : Nat) (c : Char) : Option Nat :=
  (digitValue? c).filter (· < base)

/-- The number that the digits write in `base` after those of `acc`. -/
def digitsValue? (base acc : Nat) : Text → Option Nat
  | [] => some acc
  | c :: rest =>
    match digitIn? base c with
    | some d => digitsValue? base (acc * base + d) rest
    | none => none

def decimalValue (digits : Text) : Nat := (digitsValue? 10 0 digits).getD 0

def numeral (n : Nat) : Text := Nat.toDigits 10 n

/-- A number in decimal digits, with zeros in front up to a width. -/
def numeralOf (width n : Nat) : Text :=
  let digits := numeral n
  List.replicate (width - digits.length) '0' ++ digits

end RichContent.Text
