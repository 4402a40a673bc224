/-
Inline entities: what is read from a node of a document before it is expanded.
-/
import RichContent.Markup.Document

namespace RichContent

structure Entity where
  raw : Text
  inner : Text
  text : Text
  /-- In the order asked for, each under the name asked for. -/
  attributes : List (Text × Option Text)
deriving DecidableEq, Repr

namespace Entity

def value? (e : Entity) (name : Text) : Option Text := (e.attributes.lookup name).join

end Entity

namespace Document

/-- Reads a node; names are looked up in small letters. -/
def entity (d : Document) (names : List Text) (p : Position) : Entity where
  raw := d.outerHtml p
  inner := d.innerHtml p
  text := d.textOf p
  attributes := names.map fun name => (name, (d.tag? p).bind (·.value? (Text.lower name)))

def entities (d : Document) (selector : Selector) (names : List Text) : List (Position × Entity) :=
  (d.select selector).map fun p => (p, d.entity names p)

end Document

end RichContent
