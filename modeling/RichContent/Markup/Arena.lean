/-
Documents as a table of nodes.

A cell of the table is a node with the numbers of its parent and of its
children. A new node comes to the end of the table and to the end of the
children of its parent; a node that is replaced stays in its cell and loses its
children, which stay in theirs. The nodes are gone through with a stack.
-/
import RichContent.Markup.Forest.Growth

namespace RichContent

/-- What is in a cell. An element has no `closing` as long as it is open. -/
inductive Cell.Kind where
  | element (tag : StartTag) (opening : Slice) (closing : Option Slice)
  | text (slice : Slice)
  | raw (slice : Slice)
  | fragment (f : Fragment)
deriving DecidableEq, Repr

structure Cell where
  kind : Cell.Kind
  parent : Option NodeId
  children : List NodeId
deriving DecidableEq, Repr

structure Arena where
  source : Text
  cells : List Cell
  roots : List NodeId
deriving DecidableEq, Repr

namespace Cell

def isElement (c : Cell) : Bool :=
  match c.kind with
  | .element .. => true
  | _ => false

def isFragment (c : Cell) : Bool :=
  match c.kind with
  | .fragment _ => true
  | _ => false

def name? (c : Cell) : Option Text :=
  match c.kind with
  | .element tag _ _ => some tag.name
  | _ => none

def start? (c : Cell) : Option Nat :=
  match c.kind with
  | .element _ opening _ => some opening.start
  | .text s => some s.start
  | .raw s => some s.start
  | .fragment _ => none

def adopt (id : NodeId) (c : Cell) : Cell := { c with children := c.children ++ [id] }

def close (endTag : Slice) (c : Cell) : Cell :=
  match c.kind with
  | .element tag opening _ => { c with kind := .element tag opening (some endTag) }
  | _ => c

def replace (f : Fragment) (c : Cell) : Cell := { c with kind := .fragment f, children := [] }

end Cell

namespace Arena

def empty (source : Text) : Arena := ⟨source, [], []⟩

def cell? (a : Arena) (id : NodeId) : Option Cell := a.cells[id]?

def name? (a : Arena) (id : NodeId) : Option Text := (a.cell? id).bind Cell.name?

def next (a : Arena) : Nat := a.cells.length

def update (a : Arena) (id : NodeId) (f : Cell → Cell) : Arena :=
  { a with cells := a.cells.modify id f }

/-- Puts a node under its parent, or at the top. -/
def push (a : Arena) (kind : Cell.Kind) (parent : Option NodeId) : Arena :=
  let added : Arena := { a with cells := a.cells ++ [⟨kind, parent, []⟩] }
  match parent with
  | some p => added.update p (Cell.adopt a.next)
  | none => { added with roots := a.roots ++ [a.next] }

def close (a : Arena) (id : NodeId) (endTag : Slice) : Arena := a.update id (Cell.close endTag)

def replace (a : Arena) (id : NodeId) (f : Fragment) : Arena := a.update id (Cell.replace f)

def replaceAll (a : Arena) (fragments : List (NodeId × Fragment)) : Arena :=
  fragments.foldl (fun a r => a.replace r.1 r.2) a

/-- Takes the uppermost node off the stack and puts its children there, until nothing is left.
Without a result a number on the stack is that of no node, or there have been too few rounds. -/
def visit (a : Arena) : (rounds : Nat) → (stack : List NodeId) → Option (List NodeId)
  | _, [] => some []
  | 0, _ :: _ => none
  | rounds + 1, id :: rest => do
    let c ← a.cell? id
    let later ← visit a rounds (c.children ++ rest)
    pure (id :: later)

/-- The nodes that are reached from the top, with a round for each node of the table. -/
def descendants (a : Arena) : Option (List NodeId) := a.visit a.next a.roots

/-! ## Parsing -/

/-- A table that is being filled, and the elements that are open, the innermost first. -/
structure Builder where
  arena : Arena
  opened : List NodeId

namespace Builder

/-- Adds a node to what is in the innermost open element. -/
def add (b : Builder) (kind : Cell.Kind) : Builder :=
  { b with arena := b.arena.push kind b.opened.head? }

def step (b : Builder) : Piece → Builder
  | .text s => b.add (.text s)
  | .raw s => b.add (.raw s)
  | .leaf tag s => b.add (.element tag s none)
  | .verbatim tag s content closing =>
    let id := b.arena.next
    let a := (b.add (.element tag s none)).arena
    let a := if content.text = [] then a else a.push (.text content) (some id)
    { b with arena := closing.elim a (a.close id) }
  | .opening tag s => { b.add (.element tag s none) with opened := b.arena.next :: b.opened }
  | .closing name s =>
    match b.opened.dropWhile fun id => b.arena.name? id != some name with
    -- what is open inside has ended, without end tags
    | id :: rest => ⟨b.arena.close id s, rest⟩
    | [] => b.add (.raw s)

end Builder

def parse (source : Text) : Arena :=
  ((Piece.all 0 source).foldl Builder.step ⟨empty source, []⟩).arena

end Arena

end RichContent
