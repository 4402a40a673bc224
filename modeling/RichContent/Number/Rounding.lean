/-
Rounding a quotient of natural numbers to the nearest natural number, where a
tie goes to the even neighbour.
-/

namespace RichContent

/-- The natural number nearest to `n / d`; of two, the even one. -/
def roundDiv (n d : Nat) : Nat :=
  let q := n / d
  let r := 2 * (n % d)
  if r < d then q
  else if r = d then (if q % 2 = 0 then q else q + 1)
  else q + 1

end RichContent
