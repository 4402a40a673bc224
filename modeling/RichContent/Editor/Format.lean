/-
Formats of content: what becomes of the markup once its inline entities are
expanded, and what the format adds on its own account.
-/
import RichContent.Editor.Instance
import RichContent.Editor.Markers
import RichContent.Markup.Document
import RichContent.Text.LineBreak

namespace RichContent

structure ContentFormat where
  /-- The name that the client editor knows the format by. -/
  name : Text
  body : Service .body Text Failure := .always .ok
  /-- Which nodes of the document are links, and what takes their place, in order. -/
  links : Service (fun _ : Document => .links) (List (NodeId × Fragment)) EditorError :=
    .always fun _ => .ok []
  markers : Markers := {}
  /-- Further options of the client editor. -/
  options : Instance → Fields := fun _ => []
  /-- Options that are handed over beside the others. -/
  customOptions : Fields := []
  settingUri : Text → Option Text := fun _ => none

namespace ContentFormat

def html : ContentFormat where
  name := "html".toList

/-- Plain text, where line breaks have to be made visible. -/
def textarea : ContentFormat where
  name := "textarea".toList
  body := .always fun t => .ok (Text.markBreaks t)

/-- The format of a name; plain text has two. -/
def builtin? (name : Text) : Option ContentFormat :=
  if name = "html".toList then some html
  else if name = "textarea".toList ∨ name = "text".toList then some textarea
  else none

end ContentFormat

end RichContent
