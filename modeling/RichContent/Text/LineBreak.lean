/-
Line breaks made visible in markup: each is preceded by a `<br />` and stays
where it is. A carriage return with its line feed is one break.
-/
import RichContent.Text.Basic

namespace RichContent.Text

def breakMark : Text := "<br />".toList

/-- The text with `<br />` before every line break. -/
def markBreaks : Text → Text
  | [] => []
  | '\r' :: '\n' :: rest => breakMark ++ '\r' :: '\n' :: markBreaks rest
  | c :: rest =>
    if c = '\r' ∨ c = '\n' then breakMark ++ c :: markBreaks rest else c :: markBreaks rest

end RichContent.Text
