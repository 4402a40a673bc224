/-
Extracting inline entities from content, without changing it.
-/
import RichContent.Editor.Error
import RichContent.Markup.Entity
import RichContent.Selector.Grammar

namespace RichContent

/-- Reads a selector; the error keeps the text. -/
def Selector.read (text : Text) : Except EditorError Selector :=
  (Selector.parse text).mapError (.selector text)

/-- What the elements hold that a selector picks out, in document order. An attribute that is
not there has no value. -/
def extract (content selector : Text) (names : List Text) : Except EditorError (List Entity) :=
  (Selector.read selector).map fun s => ((Document.parse content).entities s names).map (·.2)

end RichContent
