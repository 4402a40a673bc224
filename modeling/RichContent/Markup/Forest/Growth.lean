/-
The forest of a run of pieces.

An end tag closes the innermost open element of its name, and with it the
elements that are open inside that one; an end tag that no open element
answers to stays where it is, as a node. What is open when the pieces run out
has no end tag. So every run of pieces has a forest.
-/
import RichContent.Markup.Forest.Basic

namespace RichContent

/-- How a run of siblings came to its end. -/
inductive Ending where
  | source
  /-- The end tag of an element around the run; the pieces after it are left. -/
  | endTag (name : Text) (slice : Slice) (rest : List Piece)

def Ending.rest : Ending → List Piece
  | source => []
  | endTag _ _ rest => rest

/-- A run of siblings grown from at most `n` pieces, and how it ended. -/
structure Growth (n : Nat) where
  forest : Forest
  ending : Ending
  bound : ending.rest.length ≤ n

/-- The same growth with something put in front, from one more piece. -/
def Growth.map {n : Nat} (f : Forest → Forest) (g : Growth n) : Growth (n + 1) :=
  ⟨f g.forest, g.ending, Nat.le_succ_of_le g.bound⟩

def Forest.verbatim (content : Slice) : Forest :=
  if content.text = [] then .nil else .text content .nil

/-- Grows a run of siblings inside the open elements of these names. -/
def Forest.grow (opened : List Text) : (pieces : List Piece) → Growth pieces.length
  | [] => ⟨nil, .source, Nat.le_refl 0⟩
  | .text s :: rest => (grow opened rest).map (text s)
  | .raw s :: rest => (grow opened rest).map (raw s)
  | .leaf tag s :: rest => (grow opened rest).map (element tag s nil none)
  | .verbatim tag s content closing :: rest =>
    (grow opened rest).map (element tag s (verbatim content) closing)
  | .closing name s :: rest =>
    if name ∈ opened then ⟨nil, .endTag name s rest, Nat.le_succ _⟩
    else (grow opened rest).map (raw s)
  | .opening tag s :: rest =>
    match grow (tag.name :: opened) rest with
    | ⟨children, .source, bound⟩ =>
      ⟨element tag s children none nil, .source, Nat.le_succ_of_le bound⟩
    | ⟨children, .endTag name slice after, bound⟩ =>
      if name = tag.name then
        let g := grow opened after
        ⟨element tag s children (some slice) g.forest, g.ending,
          Nat.le_succ_of_le (Nat.le_trans g.bound bound)⟩
      else
        ⟨element tag s children none nil, .endTag name slice after, Nat.le_succ_of_le bound⟩
termination_by pieces => pieces.length
decreasing_by
  all_goals
    simp only [List.length_cons]
  all_goals first
    | omega
    | exact Nat.lt_succ_of_le bound

def Forest.parse (source : Text) : Forest := (grow [] (Piece.all 0 source)).forest

end RichContent
