/-
Selectors: which elements they pick out, given the tag of an element and what
is around it.

A list of selectors picks an element if one of its members does. A member is a
chain of conditions, the last for the element itself and the others for
elements around it, each farther out than the next. Something around the
element that is no element any more satisfies no condition and is passed over.
-/
import RichContent.Markup.StartTag

namespace RichContent

open Text

inductive TypeSelector where
  | universal
  /-- `img`, in small letters. -/
  | named (name : Text)
deriving DecidableEq, Repr

inductive Qualifier where
  | cls (name : Text)
  | id (name : Text)
  /-- `[name]` or `[name="value"]`; the name is in small letters. -/
  | attr (name : Text) (value : Option Text)
deriving DecidableEq, Repr

structure Compound where
  type : Option TypeSelector
  qualifiers : List Qualifier
deriving DecidableEq, Repr

/-- Compound selectors, the outermost first and the one for the element itself last. -/
abbrev Chain := List Compound

/-- A list of selectors; an element has to match one of them. -/
abbrev Selector := List Chain

namespace TypeSelector

/-- Is a tag of the type? The case of letters does not matter. -/
def holds (tag : StartTag) : TypeSelector → Bool
  | universal => true
  | named name => lower tag.name == lower name

end TypeSelector

namespace Qualifier

def holds (tag : StartTag) : Qualifier → Bool
  | cls name => tag.classes.contains name
  | id name => tag.value? "id".toList == some name
  | attr name none => tag.hasAttribute name
  | attr name (some value) => tag.value? name == some value

end Qualifier

namespace Compound

def holds (c : Compound) (tag : StartTag) : Bool :=
  c.type.all (·.holds tag) && c.qualifiers.all (·.holds tag)

end Compound

/-- An element, or something that is an element no more. -/
abbrev Surrounding := Option StartTag

namespace Chain

/-- Are the conditions met by elements around, in order? Both lists have the innermost first.
Each condition takes the first element that meets it. -/
def heldAround : List Compound → List Surrounding → Bool
  | [], _ => true
  | _ :: _, [] => false
  | c :: rest, around :: outer =>
    if around.any c.holds then heldAround rest outer else heldAround (c :: rest) outer

def holds (chain : Chain) (subject : Surrounding) (around : List Surrounding) : Bool :=
  match chain.reverse with
  | [] => false
  | last :: outer => subject.any last.holds && heldAround outer around

end Chain

namespace Selector

def holds (selector : Selector) (subject : Surrounding) (around : List Surrounding) : Bool :=
  selector.any (·.holds subject around)

end Selector

end RichContent
