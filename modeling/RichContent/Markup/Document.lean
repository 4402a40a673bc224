/-
Documents: the forest of a source, and the replacements made in it so far.

A replacement takes the place of one node, found by its number, and of
everything below it. The forest never changes, so the nodes keep their numbers
and what is around them; a replaced node is an element no more, it is not
selected again, and nothing below it is reached from the top.
-/
import RichContent.Markup.Forest.Growth
import RichContent.Selector.Basic

namespace RichContent

/-- A source, its forest, and the replacements made in it, the latest first. -/
structure Document where
  source : Text
  forest : Forest
  replacements : List (NodeId × Fragment)

namespace Document

/-- Every text is the source of a document. -/
def parse (source : Text) : Document := ⟨source, Forest.parse source, []⟩

def replacement? (d : Document) : Replacements := fun id => d.replacements.lookup id

def replace (d : Document) (id : NodeId) (f : Fragment) : Document :=
  { d with replacements := (id, f) :: d.replacements }

/-! ## What is written -/

def write (d : Document) (v : View) : Text := Forest.writeThen v d.replacement? 0 d.forest fun _ => []

theorem write_eq (d : Document) (v : View) : d.write v = d.forest.write v d.replacement? 0 := by
  simp [write, Forest.writeThen_eq]

def html (d : Document) : Text := d.write .html

def text (d : Document) : Text := d.write .plain

/-- The markup of a node, its own tags included. -/
def outerHtml (d : Document) (p : Position) : Text := p.node.write .html d.replacement? p.id

/-- The markup of what is below a node; a replaced node has nothing below it. -/
def innerHtml (d : Document) (p : Position) : Text :=
  match d.replacement? p.id with
  | some _ => []
  | none => Forest.writeThen .html d.replacement? (p.id + 1) p.node.children fun _ => []

def textOf (d : Document) (p : Position) : Text := p.node.write .plain d.replacement? p.id

/-! ## Nodes -/

/-- Every node of the source, in document order, replaced or not. -/
def nodes (d : Document) : List Position := d.forest.walk (fun _ => false) 0 []

def node? (d : Document) (id : NodeId) : Option Position := d.nodes.find? (·.id == id)

/-- The nodes that are reached from the top, in document order. -/
def reachable (d : Document) : List Position :=
  d.forest.walk (fun id => (d.replacement? id).isSome) 0 []

def roots (d : Document) : List NodeId := d.forest.siblings 0

def children (d : Document) (p : Position) : List NodeId :=
  match d.replacement? p.id with
  | some _ => []
  | none => p.node.children.siblings (p.id + 1)

def tag? (d : Document) (p : Position) : Option StartTag :=
  match d.replacement? p.id, p.node with
  | none, .element tag _ _ _ => some tag
  | _, _ => none

/-- What is around a node, the innermost first. -/
def around (d : Document) (p : Position) : List Surrounding :=
  p.ancestors.map fun (id, tag) => if (d.replacement? id).isSome then none else some tag

def isMatch (d : Document) (selector : Selector) (p : Position) : Bool :=
  selector.holds (d.tag? p) (d.around p)

/-- The elements that a selector picks out, in document order. -/
def select (d : Document) (selector : Selector) : List Position :=
  d.reachable.filter (d.isMatch selector)

end Document

end RichContent
