/-
The grammar of selectors, as a reader of one token after the other.

A `Draft` is what has been read so far and the `Place` in the grammar where it
stands. A place says which tokens may come next, so the first token that none
of them is is the first one that makes a selector impossible, and what the
place allows is what could have stood there.

One thing is said differently: as long as nothing of a compound selector is
complete, the error is that no compound selector begins there, whatever went
wrong further on inside it.
-/
import RichContent.Selector.Basic
import RichContent.Selector.Error

namespace RichContent.Selector

open Text

/-- A place in the grammar, with what of a bracket has been read. -/
inductive Place where
  | start
  /-- After a type or a complete qualifier. -/
  | item
  | dot
  | hash
  | bracket
  | bracketSpace
  | name (n : Text)
  | nameSpace (n : Text)
  | equals (n : Text)
  | equalsSpace (n : Text)
  | value (n v : Text)
  | valueSpace (n v : Text)
deriving DecidableEq, Repr

/-- The tokens of one spelling that may come at a place, and the end of the selector if it
may; ordered by their description. -/
def Place.expected : Place → List Expectation
  | start => [.token .hash, .token .star, .token .dot, .token .opening]
  | item => [.token .hash, .token .comma, .token .dot, .token .opening, .ending, .token .space]
  | dot => []
  | hash => []
  | bracket => [.token .space]
  | bracketSpace => []
  | name _ => [.token .equals, .token .closing, .token .space]
  | nameSpace _ => [.token .equals, .token .closing]
  | equals _ => [.token .space]
  | equalsSpace _ => []
  | value _ _ => [.token .closing, .token .space]
  | valueSpace _ _ => [.token .closing]

structure Draft where
  /-- The members that are complete. -/
  chains : List Chain
  /-- The compound selectors of the current member that are complete. -/
  compounds : List Compound
  current : Compound
  /-- Where the current compound selector begins, if a separator is before it. -/
  origin : Option Nat
  place : Place
deriving DecidableEq, Repr

namespace Draft

def empty : Draft := ⟨[], [], ⟨none, []⟩, none, .start⟩

def withType (d : Draft) (t : TypeSelector) : Draft :=
  { d with current := { d.current with type := some t }, place := .item }

def withQualifier (d : Draft) (q : Qualifier) : Draft :=
  { d with current := { d.current with qualifiers := d.current.qualifiers ++ [q] }, place := .item }

def moveTo (d : Draft) (place : Place) : Draft := { d with place := place }

/-- At the beginning of the next compound selector of the member, which is at byte `n`. -/
def nextCompound (d : Draft) (n : Nat) : Draft :=
  ⟨d.chains, d.compounds ++ [d.current], ⟨none, []⟩, some n, .start⟩

def nextChain (d : Draft) (n : Nat) : Draft :=
  ⟨d.chains ++ [d.compounds ++ [d.current]], [], ⟨none, []⟩, some n, .start⟩

/-- A token that may come at the beginning of a compound selector or after a part of it. -/
def beginQualifier? (d : Draft) : Token → Option Draft
  | .dot => some (d.moveTo .dot)
  | .hash => some (d.moveTo .hash)
  | .opening => some (d.moveTo .bracket)
  | _ => none

/-- Reads one token that ends at byte `stop`, if it may come here. -/
def step? (d : Draft) (stop : Nat) (t : Token) : Option Draft :=
  match d.place, t with
  | .start, .star => some (d.withType .universal)
  | .start, .ident n => some (d.withType (.named (lower n)))
  | .start, t => d.beginQualifier? t
  | .item, .space => some (d.nextCompound stop)
  | .item, .comma => some (d.nextChain stop)
  | .item, t => d.beginQualifier? t
  | .dot, .ident n => some (d.withQualifier (.cls n))
  | .hash, .ident n => some (d.withQualifier (.id n))
  | .bracket, .space => some (d.moveTo .bracketSpace)
  | .bracket, .ident n => some (d.moveTo (.name n))
  | .bracketSpace, .ident n => some (d.moveTo (.name n))
  | .name n, .space => some (d.moveTo (.nameSpace n))
  | .name n, .equals => some (d.moveTo (.equals n))
  | .name n, .closing => some (d.withQualifier (.attr (lower n) none))
  | .nameSpace n, .equals => some (d.moveTo (.equals n))
  | .nameSpace n, .closing => some (d.withQualifier (.attr (lower n) none))
  | .equals n, .space => some (d.moveTo (.equalsSpace n))
  | .equals n, .ident v => some (d.moveTo (.value n v))
  | .equals n, .quoted v => some (d.moveTo (.value n v))
  | .equalsSpace n, .ident v => some (d.moveTo (.value n v))
  | .equalsSpace n, .quoted v => some (d.moveTo (.value n v))
  | .value n v, .space => some (d.moveTo (.valueSpace n v))
  | .value n v, .closing => some (d.withQualifier (.attr (lower n) (some v)))
  | .valueSpace n v, .closing => some (d.withQualifier (.attr (lower n) (some v)))
  | _, _ => none

def finish? (d : Draft) : Option Selector :=
  match d.place with
  | .item => some (d.chains ++ [d.compounds ++ [d.current]])
  | _ => none

/-- The error of a text of `size` bytes whose draft cannot go on past `span`. -/
def error (d : Draft) (size : Nat) (obstacle : Obstacle) (span : Span) : Error :=
  if d.current = ⟨none, []⟩ then
    ⟨d.origin.elim ⟨0, size⟩ fun n => ⟨n, n⟩, .noCompound, []⟩
  else ⟨span, obstacle, d.place.expected⟩

def read (size : Nat) (d : Draft) : List Token.Placed → Except Error Selector
  | [] =>
    match d.finish? with
    | some selector => .ok selector
    | none => .error (d.error size .unexpectedEnd ⟨size, size⟩)
  | t :: rest =>
    match d.step? t.slice.stop t.token with
    | some d' => read size d' rest
    | none => .error (d.error size (.unexpected t.token) t.slice.span)

end Draft

/-- Reads a selector; white space at either end does not count, and the places of an error are
those of the text without it. -/
def parse (t : Text) : Except Error Selector :=
  Draft.empty.read (trim t).utf8Size (Token.all 0 (trim t))

end RichContent.Selector
