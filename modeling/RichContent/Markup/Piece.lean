/-
The pieces that a tree of markup is built from.

They are the lexemes, sorted by what they do to the tree: some are nodes by
themselves, some open an element, some close one. An element whose content is
taken as it stands, such as a script, is one piece with its content and its
end tag, because its content is not lexed.
-/
import RichContent.Markup.Lexeme

namespace RichContent

open Text

inductive Piece where
  /-- Character data: text, a lone `<`, markup that is never finished. -/
  | text (slice : Slice)
  | raw (slice : Slice)
  /-- The tag of an element that cannot have content. -/
  | leaf (tag : StartTag) (opening : Slice)
  /-- An element with its content, taken as it stands, and its end tag. -/
  | verbatim (tag : StartTag) (opening content : Slice) (closing : Option Slice)
  /-- The start tag of an element that can have content. -/
  | opening (tag : StartTag) (slice : Slice)
  | closing (name : Text) (slice : Slice)
deriving DecidableEq, Repr

namespace Piece

def voidElements : List Text :=
  ["area".toList, "base".toList, "br".toList, "col".toList, "embed".toList, "hr".toList,
    "img".toList, "input".toList, "link".toList, "meta".toList, "param".toList, "source".toList,
    "track".toList, "wbr".toList]

/-- The elements whose content is taken as it stands. -/
def verbatimElements : List Text :=
  ["script".toList, "style".toList, "textarea".toList, "title".toList]

/-! ## Content taken as it stands -/

/-- Does the text begin with `</` and the name, in any case, and does the name end there? -/
def endsVerbatim (name t : Text) : Bool :=
  lower (t.take (name.length + 2)) == '<' :: '/' :: name &&
    match t.drop (name.length + 2) with
    | [] => true
    | c :: _ => isBlank c || c == '>' || c == '/'

/-- Content taken as it stands, its end tag if there is one, and what follows. -/
structure Verbatim where
  content : Text
  closing : Option Text
  after : Text
deriving DecidableEq, Repr

/-- Cuts the content of an element at its end tag. Without one it is all that is left. -/
def cutVerbatim (name : Text) : Text → Verbatim
  | [] => ⟨[], none, []⟩
  | c :: rest =>
    if endsVerbatim name (c :: rest) then
      match cutAfterGreater (c :: rest) with
      | some (tag, after) => ⟨[], some tag, after⟩
      | none => ⟨c :: rest, none, []⟩
    else
      let v := cutVerbatim name rest
      { v with content := c :: v.content }

theorem cutVerbatim_append (name t : Text) :
    (cutVerbatim name t).content ++ (cutVerbatim name t).closing.getD []
      ++ (cutVerbatim name t).after = t := by
  induction t with
  | nil => rfl
  | cons c t ih =>
    rw [cutVerbatim]
    split
    · split
      · rename_i h; simpa using append_of_cutAfterGreater h
      · simp
    · simpa using ih

theorem length_cutVerbatim_after (name t : Text) :
    (cutVerbatim name t).after.length ≤ t.length := by
  have h := congrArg List.length (cutVerbatim_append name t)
  simp only [List.length_append] at h
  omega

/-! ## The pieces of a source -/

def ofVerbatim (tag : StartTag) (opening : Slice) (v : Verbatim) : Piece :=
  let content : Slice := ⟨opening.stop, v.content⟩
  verbatim tag opening content (v.closing.map (⟨content.stop, ·⟩))

def all (start : Nat) : Text → List Piece
  | [] => []
  | c :: rest =>
    let step := Lexeme.next c rest
    let slice : Slice := ⟨start, step.text⟩
    match step.kind with
    | .text | .loneLess | .unfinished => text slice :: all slice.stop step.after
    | .comment | .declaration | .instruction => raw slice :: all slice.stop step.after
    | .endTag name => closing name slice :: all slice.stop step.after
    | .startTag tag =>
      if tag.name ∈ voidElements ∨ tag.selfClosing then leaf tag slice :: all slice.stop step.after
      else if tag.name ∈ verbatimElements then
        let v := cutVerbatim tag.name step.after
        ofVerbatim tag slice v ::
          all (slice.stop + v.content.utf8Size + (v.closing.getD []).utf8Size) v.after
      else opening tag slice :: all slice.stop step.after
termination_by t => t.length
decreasing_by
  all_goals
    have h := Lexeme.length_next_after c rest
    simp only [List.length_cons]
  all_goals first
    | omega
    | have := length_cutVerbatim_after tag.name (Lexeme.next c rest).after
      omega

end Piece

end RichContent
