/-
How the content input of an editor is displayed. What is left open takes its
default, each argument as a whole.
-/
import RichContent.Record

namespace RichContent

/-- The arguments of a content input, all decided. -/
structure Display where
  content : Text := []
  domName : Text := "content".toList
  domId : Text := "xeContentEditor".toList
  /-- Further attributes of the input element. -/
  domOptions : List (Text × Text) :=
    [("class".toList, "form-control".toList), ("rows".toList, "20".toList),
      ("cols".toList, "80".toList)]
  placeholder : Text := "Content".toList
deriving DecidableEq, Repr

/-- The arguments of a content input, as far as they are given. -/
structure Arguments where
  content : Option Text := none
  domName : Option Text := none
  domId : Option Text := none
  domOptions : Option (List (Text × Text)) := none
  placeholder : Option Text := none
deriving DecidableEq, Repr

namespace Arguments

def resolve (a : Arguments) : Display :=
  let d : Display := {}
  { content := a.content.getD d.content
    domName := a.domName.getD d.domName
    domId := a.domId.getD d.domId
    domOptions := a.domOptions.getD d.domOptions
    placeholder := a.placeholder.getD d.placeholder }

def fieldNames : List Text :=
  ["content".toList, "content_dom_name".toList, "content_dom_id".toList,
    "content_dom_options".toList, "placeholder".toList]

/-- Reads arguments; each may be left out or null. -/
def read? {σ : Type} [Datum σ] (v : σ) : Option Arguments := do
  let fields ← Record.fields? fieldNames v
  pure
    { content := ← Record.optional? fields "content" Datum.text?
      domName := ← Record.optional? fields "content_dom_name" Datum.text?
      domId := ← Record.optional? fields "content_dom_id" Datum.text?
      domOptions :=
        ← Record.optional? fields "content_dom_options" (Record.list? Record.pair?)
      placeholder := ← Record.optional? fields "placeholder" Datum.text? }

end Arguments

end RichContent
