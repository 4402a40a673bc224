/-
Forests of markup: runs of siblings, each with its children.

Nodes are numbered in document order, so a node's number is the count of the
nodes before it; the numbers are not stored, they follow from the shape. What
is written for a forest is decided by a `View` and by a table of nodes that
other markup has taken the place of: such a node writes its replacement, and
nothing that is below it.
-/
import RichContent.Markup.Piece

namespace RichContent

open Text

/-- The number of a node in document order. -/
abbrev NodeId := Nat

/-- A run of siblings; the last argument of each constructor is the rest of the run. -/
inductive Forest where
  | nil
  | text (slice : Slice) (rest : Forest)
  /-- A comment, declaration, instruction, or an end tag that closes nothing. -/
  | raw (slice : Slice) (rest : Forest)
  /-- An element; one that has no end tag has no `closing`. -/
  | element (tag : StartTag) (opening : Slice) (children : Forest) (closing : Option Slice)
      (rest : Forest)
deriving DecidableEq, Repr

/-- Markup that takes the place of a node, and the text that it stands for. -/
structure Fragment where
  html : Text
  text : Text
deriving DecidableEq, Repr

inductive Node where
  | text (slice : Slice)
  | raw (slice : Slice)
  | element (tag : StartTag) (opening : Slice) (children : Forest) (closing : Option Slice)
deriving DecidableEq, Repr

/-- What is written for the parts of a forest. -/
structure View where
  text : Text → Text
  raw : Text → Text
  tag : Text → Text
  fragment : Fragment → Text

namespace View

def html : View := ⟨id, id, id, Fragment.html⟩

def plain : View := ⟨decode, fun _ => [], fun _ => [], Fragment.text⟩

@[simp] theorem html_text (t : Text) : html.text t = t := rfl

@[simp] theorem html_raw (t : Text) : html.raw t = t := rfl

@[simp] theorem html_tag (t : Text) : html.tag t = t := rfl

@[simp] theorem html_fragment (f : Fragment) : html.fragment f = f.html := rfl

def tag? (v : View) : Option Slice → Text
  | some s => v.tag s.text
  | none => []

@[simp] theorem tag?_none (v : View) : v.tag? none = [] := rfl

@[simp] theorem tag?_some (v : View) (s : Slice) : v.tag? (some s) = v.tag s.text := rfl

end View

abbrev Replacements := NodeId → Option Fragment

namespace Forest

def size : Forest → Nat
  | nil => 0
  | text _ rest => 1 + rest.size
  | raw _ rest => 1 + rest.size
  | element _ _ children _ rest => 1 + children.size + rest.size

/-- Writes a forest whose first node has number `n`. -/
def write (v : View) (replaced : Replacements) (n : NodeId) : Forest → Text
  | nil => []
  | text s rest =>
    ((replaced n).elim (v.text s.text) v.fragment) ++ rest.write v replaced (n + 1)
  | raw s rest =>
    ((replaced n).elim (v.raw s.text) v.fragment) ++ rest.write v replaced (n + 1)
  | element _ opening children closing rest =>
    (match replaced n with
      | some f => v.fragment f
      | none => v.tag opening.text ++ children.write v replaced (n + 1) ++ v.tag? closing)
      ++ rest.write v replaced (n + 1 + children.size)

/-- Writes a forest whose first node has number `n`, and then what `k` makes of the number after
its last node. The forest is gone through once. -/
def writeThen (v : View) (replaced : Replacements) :
    (n : NodeId) → Forest → (k : NodeId → Text) → Text
  | n, nil, k => k n
  | n, text s rest, k =>
    (replaced n).elim (v.text s.text) v.fragment ++ writeThen v replaced (n + 1) rest k
  | n, raw s rest, k =>
    (replaced n).elim (v.raw s.text) v.fragment ++ writeThen v replaced (n + 1) rest k
  | n, element _ opening children closing rest, k =>
    match replaced n with
    | some f => v.fragment f ++ writeThen v replaced (n + 1 + children.size) rest k
    | none =>
      v.tag opening.text ++ writeThen v replaced (n + 1) children fun m =>
        v.tag? closing ++ writeThen v replaced m rest k

theorem writeThen_eq (v : View) (replaced : Replacements) (n : NodeId) (f : Forest)
    (k : NodeId → Text) :
    writeThen v replaced n f k = f.write v replaced n ++ k (n + f.size) := by
  induction f generalizing n k with
  | nil => rfl
  | text s rest ih => simp [writeThen, write, size, ih, Nat.add_assoc]
  | raw s rest ih => simp [writeThen, write, size, ih, Nat.add_assoc]
  | element tag opening children closing rest ihc ihr =>
    rw [writeThen, write, size]
    cases replaced n <;> simp [ihc, ihr, Nat.add_assoc]

/-- The numbers of the siblings of a run whose first node has number `n`. -/
def siblings (n : NodeId) : Forest → List NodeId
  | nil => []
  | text _ rest => n :: rest.siblings (n + 1)
  | raw _ rest => n :: rest.siblings (n + 1)
  | element _ _ children _ rest => n :: rest.siblings (n + 1 + children.size)

end Forest

namespace Node

def children : Node → Forest
  | text _ => .nil
  | raw _ => .nil
  | element _ _ children _ => children

def write (v : View) (replaced : Replacements) (n : NodeId) : Node → Text
  | text s => (replaced n).elim (v.text s.text) v.fragment
  | raw s => (replaced n).elim (v.raw s.text) v.fragment
  | element _ opening children closing =>
    match replaced n with
    | some f => v.fragment f
    | none =>
      v.tag opening.text ++ Forest.writeThen v replaced (n + 1) children fun _ => v.tag? closing

theorem write_element (v : View) (replaced : Replacements) (n : NodeId) (tag : StartTag)
    (opening : Slice) (children : Forest) (closing : Option Slice) :
    (element tag opening children closing).write v replaced n =
      match replaced n with
      | some f => v.fragment f
      | none => v.tag opening.text ++ children.write v replaced (n + 1) ++ v.tag? closing := by
  simp [write, Forest.writeThen_eq]

end Node

/-- A node where it stands: its number and the elements around it, the innermost first. -/
structure Position where
  id : NodeId
  ancestors : List (NodeId × StartTag)
  node : Node
deriving DecidableEq, Repr

namespace Position

def parent? (p : Position) : Option NodeId := p.ancestors.head?.map (·.1)

end Position

/-- The nodes of a forest in document order, leaving out what is below the nodes of `closed`. -/
def Forest.walk (closed : NodeId → Bool) (n : NodeId) (ancestors : List (NodeId × StartTag)) :
    Forest → List Position
  | nil => []
  | text s rest => ⟨n, ancestors, .text s⟩ :: rest.walk closed (n + 1) ancestors
  | raw s rest => ⟨n, ancestors, .raw s⟩ :: rest.walk closed (n + 1) ancestors
  | element tag opening children closing rest =>
    ⟨n, ancestors, .element tag opening children closing⟩ ::
      ((if closed n then [] else children.walk closed (n + 1) ((n, tag) :: ancestors))
        ++ rest.walk closed (n + 1 + children.size) ancestors)

end RichContent
