/-
Why a text is no selector: what stands in the way, where, and what could have
stood there instead.
-/
import RichContent.Selector.Token
import RichContent.Text.Digits

namespace RichContent

inductive Selector.Obstacle where
  /-- No compound selector begins where one has to. -/
  | noCompound
  | unexpected (found : Token)
  | unexpectedEnd
deriving DecidableEq, Repr

/-- What could stand at a place. Names and quoted texts, of which there are many, are left out. -/
inductive Selector.Expectation where
  | token (t : Token)
  | ending
deriving DecidableEq, Repr

structure Selector.Error where
  span : Span
  obstacle : Obstacle
  expected : List Expectation
deriving DecidableEq, Repr

namespace Selector

open Text

def Obstacle.reason : Obstacle → Text
  | noCompound => "expected a type, class, id or attribute selector".toList
  | unexpected found => "Unexpected ".toList ++ found.describe
  | unexpectedEnd => "Unexpected end of selector".toList

def Expectation.describe : Expectation → Text
  | token t => t.describe
  | ending => "end of selector".toList

def Error.message (e : Error) : Text :=
  "selector error at ".toList ++ numeral e.span.start ++ "..".toList ++ numeral e.span.stop
    ++ ": ".toList ++ e.obstacle.reason

end Selector

end RichContent
