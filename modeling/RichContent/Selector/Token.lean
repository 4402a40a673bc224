/-
The tokens of selectors, with their places.

Blanks around a comma belong to the comma, so a blank by itself always joins
two compound selectors or stands inside brackets. A quoted text whose quote
never closes, and every character that begins no token, is a token of its own
kind, so that no text is refused here.
-/
import RichContent.Text.Slice

namespace RichContent

open Text

inductive Token where
  | comma
  | space
  | dot
  | hash
  | star
  | opening
  | closing
  | equals
  | ident (name : Text)
  /-- A quoted text, without its quotes. -/
  | quoted (text : Text)
  /-- What no selector can hold, by its first character. -/
  | invalid (c : Char)
deriving DecidableEq, Repr

structure Token.Placed where
  slice : Slice
  token : Token
deriving DecidableEq, Repr

namespace Token

def isSpace (c : Char) : Bool := c == ' ' || c == '\t' || c == '\n' || c == '\r'

def isIdentChar (c : Char) : Bool := c.isAlphanum || c == '_' || c == '-'

def describe : Token → Text
  | ident name => "name '".toList ++ name ++ "'".toList
  | quoted text => "string \"".toList ++ text ++ "\"".toList
  | dot => "'.'".toList
  | hash => "'#'".toList
  | star => "'*'".toList
  | opening => "'['".toList
  | closing => "']'".toList
  | equals => "'='".toList
  | comma => "','".toList
  | space => "whitespace".toList
  | invalid c => "unsupported character '".toList ++ c :: "'".toList

def ofChar (c : Char) : Token :=
  match c with
  | '.' => dot
  | '#' => hash
  | '*' => star
  | '[' => opening
  | ']' => closing
  | '=' => equals
  | _ => invalid c

structure Step where
  text : Text
  token : Token
  after : Text

def quotedStep (quote : Char) (rest : Text) : Step :=
  match rest.dropWhile (· != quote) with
  | [] => ⟨quote :: rest, .invalid quote, []⟩
  | q :: after =>
    let inner := rest.takeWhile (· != quote)
    ⟨quote :: inner ++ [q], .quoted inner, after⟩

/-- Blanks, with the comma among them if there is one. -/
def blankStep (t : Text) : Step :=
  let blanks := t.takeWhile isSpace
  match t.dropWhile isSpace with
  | ',' :: rest => ⟨blanks ++ ',' :: rest.takeWhile isSpace, .comma, rest.dropWhile isSpace⟩
  | after => ⟨blanks, .space, after⟩

def next (c : Char) (rest : Text) : Step :=
  if isSpace c || c == ',' then blankStep (c :: rest)
  else if isIdentChar c then
    let name := c :: rest.takeWhile isIdentChar
    ⟨name, .ident name, rest.dropWhile isIdentChar⟩
  else if c == '"' || c == '\'' then quotedStep c rest
  else ⟨[c], ofChar c, rest⟩

theorem blankStep_append (t : Text) : (blankStep t).text ++ (blankStep t).after = t := by
  rw [blankStep]
  split
  · rename_i rest h
    have := List.takeWhile_append_dropWhile (p := isSpace) (l := t)
    rw [h] at this
    simpa using this
  · simp

theorem quotedStep_append (quote : Char) (rest : Text) :
    (quotedStep quote rest).text ++ (quotedStep quote rest).after = quote :: rest := by
  rw [quotedStep]
  split
  · simp
  · rename_i q after h
    have := List.takeWhile_append_dropWhile (p := (· != quote)) (l := rest)
    rw [h] at this
    simpa using this

theorem next_append (c : Char) (rest : Text) :
    (next c rest).text ++ (next c rest).after = c :: rest := by
  rw [next]
  split
  · exact blankStep_append _
  · split
    · simp
    · split
      · exact quotedStep_append _ _
      · rfl

theorem blankStep_text_ne_nil {c : Char} (h : (isSpace c || c == ',') = true) (rest : Text) :
    (blankStep (c :: rest)).text ≠ [] := by
  rw [blankStep]
  by_cases hc : isSpace c = true
  · split <;> simp [hc]
  · have : c = ',' := by simpa [hc] using h
    subst this
    simp [isSpace]

theorem next_text_ne_nil (c : Char) (rest : Text) : (next c rest).text ≠ [] := by
  rw [next]
  split
  · rename_i h; exact blankStep_text_ne_nil h rest
  · split
    · simp
    · split
      · rw [quotedStep]; split <;> simp
      · simp

theorem length_next_after (c : Char) (rest : Text) : (next c rest).after.length ≤ rest.length := by
  have h := congrArg List.length (next_append c rest)
  have hp := List.length_pos_iff.2 (next_text_ne_nil c rest)
  rw [List.length_append, List.length_cons] at h
  omega

/-- The tokens of a text whose first byte is number `start`. -/
def all (start : Nat) : Text → List Placed
  | [] => []
  | c :: rest =>
    ⟨⟨start, (next c rest).text⟩, (next c rest).token⟩ ::
      all (start + (next c rest).text.utf8Size) (next c rest).after
termination_by t => t.length
decreasing_by
  have := length_next_after c rest
  simp only [List.length_cons]
  omega

end Token

end RichContent
