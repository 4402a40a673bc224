/-
The lexemes of markup: comments, declarations, instructions, tags, text, and
what begins like one of them but is never finished.

Each lexeme is a slice of the source with a kind. The lexemes of a source
follow each other without a gap and leave nothing out, so that the source can
be put together again from them; no source is refused.
-/
import RichContent.Text.Slice
import RichContent.Markup.StartTag

namespace RichContent

open Text

inductive Lexeme.Kind where
  | comment
  /-- `<!DOCTYPE …>`, `<![CDATA[…]]>` -/
  | declaration
  /-- `<? … >` -/
  | instruction
  | startTag (tag : StartTag)
  /-- The name is in small letters. -/
  | endTag (name : Text)
  | text
  /-- A `<` that begins nothing. -/
  | loneLess
  | unfinished
deriving DecidableEq, Repr

structure Lexeme where
  slice : Slice
  kind : Lexeme.Kind
deriving DecidableEq, Repr

namespace Lexeme

/-! ## Where a start tag ends -/

def isLetter (c : Char) : Bool := c.isAlpha

/-- How a scan for the end of a start tag comes out. -/
inductive TagEnd where
  /-- The tag is complete: its rest, `>` included, and what follows it. -/
  | closed (rest after : Text)
  /-- A `<` came first, so this is no tag. -/
  | broken
  | ranOut
deriving DecidableEq, Repr

def TagEnd.cons (c : Char) : TagEnd → TagEnd
  | closed rest after => closed (c :: rest) after
  | broken => broken
  | ranOut => ranOut

/-- Scans for the `>` that ends a start tag. Right after an `=`, blanks apart, a quote opens a
value, and a value hides `>` and `<` up to its closing quote. `quote` is the quote of the value
that the scan is in; `afterEquals` says whether the last character that is no blank was an `=`. -/
def scanTag (quote : Option Char) (afterEquals : Bool) : Text → TagEnd
  | [] => .ranOut
  | c :: rest =>
    match quote with
    | some q =>
      if c = q then (scanTag none false rest).cons c else (scanTag quote afterEquals rest).cons c
    | none =>
      if (c = '"' ∨ c = '\'') ∧ afterEquals then (scanTag (some c) false rest).cons c
      else if c = '>' then .closed ['>'] rest
      else if c = '<' then .broken
      else (scanTag none (if isBlank c then afterEquals else c = '=') rest).cons c

def cutPlainTag : Text → Option (Text × Text)
  | [] => none
  | c :: rest =>
    if c = '>' then some (['>'], rest)
    else if c = '<' then none
    else (cutPlainTag rest).map fun (before, after) => (c :: before, after)

/-- The rest of a start tag, after `<` and a letter, and what follows the tag. Where a quote
never closes, the quotes mean nothing and the first `>` ends the tag. -/
def cutTag (t : Text) : Option (Text × Text) :=
  match scanTag none false t with
  | .closed rest after => some (rest, after)
  | .broken => none
  -- the values that were closed on the way mean nothing now either
  | .ranOut => cutPlainTag t

theorem TagEnd.append_of_cons {e : TagEnd} {c : Char} {t rest after : Text}
    (he : ∀ {r a}, e = closed r a → r ++ a = t) (h : e.cons c = closed rest after) :
    rest ++ after = c :: t := by
  cases e with
  | closed r a => cases h; simp [he rfl]
  | broken => cases h
  | ranOut => cases h

theorem append_of_scanTag {t rest after : Text} {quote : Option Char} {afterEquals : Bool}
    (h : scanTag quote afterEquals t = .closed rest after) : rest ++ after = t := by
  induction t generalizing quote afterEquals rest after with
  | nil => simp [scanTag] at h
  | cons c t ih =>
    rw [scanTag.eq_def] at h
    simp only at h
    split at h
    · split at h
      · exact TagEnd.append_of_cons (fun h => ih h) h
      · exact TagEnd.append_of_cons (fun h => ih h) h
    · split at h
      · exact TagEnd.append_of_cons (fun h => ih h) h
      · split at h
        · cases h; simp [*]
        · split at h
          · cases h
          · exact TagEnd.append_of_cons (fun h => ih h) h

theorem append_of_cutPlainTag {t rest after : Text} (h : cutPlainTag t = some (rest, after)) :
    rest ++ after = t := by
  induction t generalizing rest after with
  | nil => simp [cutPlainTag] at h
  | cons c t ih =>
    rw [cutPlainTag] at h
    split at h
    · cases h; simp [*]
    · split at h
      · cases h
      · obtain ⟨⟨b, a⟩, hba, heq⟩ := Option.map_eq_some_iff.1 h
        cases heq
        simp [ih hba]

theorem append_of_cutTag {t rest after : Text} (h : cutTag t = some (rest, after)) :
    rest ++ after = t := by
  rw [cutTag] at h
  split at h
  · rename_i hs; cases h; exact append_of_scanTag hs
  · cases h
  · exact append_of_cutPlainTag h

/-! ## Lexing -/

/-- The name of an end tag, from what is between `</` and `>`. -/
def endTagName (inner : Text) : Text := lower (inner.takeWhile fun c => !isBlank c && c != '/')

structure Step where
  text : Text
  kind : Kind
  after : Text

/-- Markup that runs to the next `>`, or is unfinished up to the end of the source. -/
def toGreater (opening rest : Text) (kind : Text → Kind) : Step :=
  match cutAfterGreater rest with
  | some (before, after) => ⟨opening ++ before, kind before.dropLast, after⟩
  | none => ⟨opening ++ rest, .unfinished, []⟩

def comment (body : Text) : Step :=
  match cutAt "-->".toList body with
  | some (before, after) => ⟨"<!--".toList ++ before ++ "-->".toList, .comment, after⟩
  | none => ⟨"<!--".toList, .unfinished, body⟩

def startTag (letter : Char) (body : Text) : Step :=
  match cutTag body with
  | some (rest, after) =>
    ⟨'<' :: letter :: rest, .startTag (StartTag.parse ('<' :: letter :: rest)), after⟩
  | none => ⟨['<', letter], .unfinished, body⟩

def markup (rest : Text) : Step :=
  match rest with
  | '!' :: '-' :: '-' :: body => comment body
  | '!' :: d :: body =>
    if isLetter d || d == '[' then toGreater ['<', '!', d] body fun _ => .declaration
    else ⟨['<'], .loneLess, rest⟩
  | '?' :: body => toGreater ['<', '?'] body fun _ => .instruction
  | '/' :: d :: body =>
    if isLetter d then toGreater ['<', '/', d] body fun inner => .endTag (endTagName (d :: inner))
    else ⟨['<'], .loneLess, rest⟩
  | d :: body => if isLetter d then startTag d body else ⟨['<'], .loneLess, rest⟩
  | [] => ⟨['<'], .loneLess, rest⟩

def next (c : Char) (rest : Text) : Step :=
  if c = '<' then markup rest
  else ⟨c :: rest.takeWhile (· != '<'), .text, rest.dropWhile (· != '<')⟩

/-! ### Nothing is lost and something is taken -/

theorem toGreater_append (opening rest : Text) (kind : Text → Kind) :
    (toGreater opening rest kind).text ++ (toGreater opening rest kind).after
      = opening ++ rest := by
  rw [toGreater]
  split
  · rename_i h; simp [append_of_cutAfterGreater h]
  · simp

theorem comment_append (body : Text) :
    (comment body).text ++ (comment body).after = "<!--".toList ++ body := by
  rw [comment]
  split
  · rename_i h; simp [← append_of_cutAt h]
  · rfl

theorem startTag_append (letter : Char) (body : Text) :
    (startTag letter body).text ++ (startTag letter body).after = '<' :: letter :: body := by
  rw [startTag]
  split
  · rename_i h; simp [append_of_cutTag h]
  · rfl

theorem markup_append (rest : Text) : (markup rest).text ++ (markup rest).after = '<' :: rest := by
  rw [markup.eq_def]
  split
  · exact comment_append _
  · split
    · exact toGreater_append _ _ _
    · rfl
  · exact toGreater_append _ _ _
  · split
    · exact toGreater_append _ _ _
    · rfl
  · split
    · exact startTag_append _ _
    · rfl
  · rfl

theorem next_append (c : Char) (rest : Text) :
    (next c rest).text ++ (next c rest).after = c :: rest := by
  rw [next]
  split
  · rename_i h; rw [h]; exact markup_append rest
  · simp [List.takeWhile_append_dropWhile]

theorem toGreater_text_ne_nil {opening : Text} (h : opening ≠ []) (rest : Text)
    (kind : Text → Kind) : (toGreater opening rest kind).text ≠ [] := by
  rw [toGreater]
  split <;> simp [h]

theorem next_text_ne_nil (c : Char) (rest : Text) : (next c rest).text ≠ [] := by
  rw [next]
  split
  · rw [markup.eq_def]
    split
    · rw [comment]; split <;> simp
    · split
      · exact toGreater_text_ne_nil (by simp) _ _
      · simp
    · exact toGreater_text_ne_nil (by simp) _ _
    · split
      · exact toGreater_text_ne_nil (by simp) _ _
      · simp
    · split
      · rw [startTag]; split <;> simp
      · simp
    · simp
  · simp

theorem length_next_after (c : Char) (rest : Text) : (next c rest).after.length ≤ rest.length := by
  have h := congrArg List.length (next_append c rest)
  have hp := List.length_pos_iff.2 (next_text_ne_nil c rest)
  rw [List.length_append, List.length_cons] at h
  omega

/-- The lexemes of a source whose first byte is number `start`. -/
def all (start : Nat) : Text → List Lexeme
  | [] => []
  | c :: rest =>
    ⟨⟨start, (next c rest).text⟩, (next c rest).kind⟩ ::
      all (start + (next c rest).text.utf8Size) (next c rest).after
termination_by t => t.length
decreasing_by
  have := length_next_after c rest
  simp only [List.length_cons]
  omega

end Lexeme

end RichContent
