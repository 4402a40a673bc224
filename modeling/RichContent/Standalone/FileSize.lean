/-
The sizes of files as people read them: in bytes, or in kilobytes, megabytes
and gigabytes with one decimal place.
-/
import RichContent.Number.Binary64
import RichContent.Text.Digits

namespace RichContent.FileSize

open Text

/-- The units of sizes from 1024 bytes on; each is 1024 times the one before. -/
def units : List Text := ["KB".toList, "MB".toList, "GB".toList]

def printTenths (n : Nat) : Text :=
  numeral (n / 10) ++ '.' :: numeral (n % 10)

/-- A size in the first unit of which it has less than 1024, or in the last one. `scale` is the
number of bytes in the first unit. -/
def inUnit (bytes scale : Nat) : List Text → Text
  | [] => []
  | [unit] => printTenths (roundDiv (bytes * 10) scale) ++ ' ' :: unit
  | unit :: unit' :: rest =>
    if bytes < scale * 1024 then printTenths (roundDiv (bytes * 10) scale) ++ ' ' :: unit
    else inUnit bytes (scale * 1024) (unit' :: rest)

/-- A number of bytes with the 53 binary digits that count for a size. -/
def significant (bytes : Nat) : Nat :=
  match Binary64.nearest false bytes 1 with
  | some x => x.ratio.1 / x.ratio.2
  | none => bytes

def describe (bytes : Nat) : Text :=
  if bytes < 1024 then numeral bytes ++ " B".toList
  else inUnit (significant bytes) 1024 units

end RichContent.FileSize
