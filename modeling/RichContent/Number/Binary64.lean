/-
Binary floating-point numbers of 64 bits: the finite ones, as a sign and a
natural number times a power of two.

`nearest` rounds a quotient of natural numbers to such a number, `ofDecimal`
reads a decimal through it, and `shortest` gives the fewest decimal digits that
are read back as the same number.
-/
import RichContent.Number.Rounding

namespace RichContent

/-- The number `mantissa * 2 ^ exponent`, negative if `negative`. Zero has two signs. -/
structure Binary64 where
  negative : Bool
  mantissa : Nat
  exponent : Int
deriving DecidableEq, Repr

/-- The digits of `digits`, followed by a power of ten. -/
structure Decimal where
  digits : Nat
  exponent : Int
deriving DecidableEq, Repr

namespace Binary64

def minExponent : Int := -1074

def maxExponent : Int := 971

/-- A mantissa is less than this, the fifty-third power of two. -/
def mantissaLimit : Nat := 9007199254740992

/-- The quotient `n / d` times `2 ^ e`, as a quotient. -/
def scaleTwo (n d : Nat) (e : Int) : Nat × Nat :=
  if 0 ≤ e then (n * Nat.pow 2 e.toNat, d) else (n, d * Nat.pow 2 (-e).toNat)

def scaleTen (n d : Nat) (e : Int) : Nat × Nat :=
  if 0 ≤ e then (n * Nat.pow 10 e.toNat, d) else (n, d * Nat.pow 10 (-e).toNat)

/-- The greatest `e` with `2 ^ e ≤ n / d`, for positive `n` and `d`. -/
def log2Div (n d : Nat) : Int :=
  let e : Int := (Nat.log2 n : Int) - (Nat.log2 d : Int)
  let (n', d') := scaleTwo n d (-e)
  if n' < d' then e - 1 else e

/-- The number nearest to `n / d`, a tie going to the even mantissa; none if it is too great. -/
def nearest (negative : Bool) (n d : Nat) : Option Binary64 :=
  if n = 0 then some ⟨negative, 0, 0⟩
  else
    let e := max (log2Div n d - 52) minExponent
    let (n', d') := scaleTwo n d (-e)
    let m := roundDiv n' d'
    let (m, e) := if m = mantissaLimit then (m / 2, e + 1) else (m, e)
    if m = 0 then some ⟨negative, 0, 0⟩
    else if maxExponent < e then none
    else some ⟨negative, m, e⟩

/-- The number of decimal digits; none for zero. -/
def digitCount (n : Nat) : Nat := if n = 0 then 0 else (Nat.toDigits 10 n).length

/-- The number nearest to a decimal; none if it is too great. Decimals that are out of range
by far are told apart by their size alone. -/
def ofDecimal (negative : Bool) (x : Decimal) : Option Binary64 :=
  let size : Int := digitCount x.digits + x.exponent
  if x.digits = 0 ∨ size < -330 then some ⟨negative, 0, 0⟩
  else if 330 < size then none
  else
    let (n, d) := scaleTen x.digits 1 x.exponent
    nearest negative n d

def ratio (x : Binary64) : Nat × Nat := scaleTwo x.mantissa 1 x.exponent

/-! ## The fewest digits that read back -/

/-- The greatest `e` with `10 ^ e ≤ n / d`, for positive `n` and `d`, found from below `guess`. -/
def log10Div (n d : Nat) : Int :=
  let holds (e : Int) : Bool :=
    let (p, q) := scaleTen 1 1 e
    p * d ≤ n * q
  let guess : Int := log2Div n d * 30103 / 100000
  if holds (guess + 1) then guess + 1 else if holds guess then guess else guess - 1

/-- The decimal with `count` digits nearest to the number, if it reads back. Its neighbours on
the grid are the only candidates. -/
def withDigits? (x : Binary64) (count : Nat) : Option Decimal :=
  let (n, d) := x.ratio
  let e : Int := log10Div n d + 1 - count
  let (n', d') := scaleTen n d (-e)
  let readsBack (m : Nat) : Bool := ofDecimal x.negative ⟨m, e⟩ == some x
  let near := roundDiv n' d'
  let below := n' / d'
  let other := if near = below then below + 1 else below
  if readsBack near then some ⟨near, e⟩
  else if readsBack other then some ⟨other, e⟩
  else none

def shortestFrom (x : Binary64) (count : Nat) : (tries : Nat) → Decimal
  | 0 => ⟨x.mantissa, 0⟩
  | tries + 1 => (x.withDigits? count).getD (shortestFrom x (count + 1) tries)

/-- The decimal without zeros at the end of its digits, of which `count` may be taken off. -/
def stripZeros (x : Decimal) : (count : Nat) → Decimal
  | 0 => x
  | count + 1 =>
    if x.digits % 10 = 0 then stripZeros ⟨x.digits / 10, x.exponent + 1⟩ count else x

/-- The absolute value in the fewest digits that are read back as the same number. -/
def shortest (x : Binary64) : Decimal :=
  if x.mantissa = 0 then ⟨0, 0⟩ else stripZeros (x.shortestFrom 1 17) 20

end Binary64

end RichContent
