/-
The report of an error in a selector: the message, the lines of the text that
the error is in with the place marked, and the message once more with what was
expected. The report is for a terminal and has colours.

The place of an error is taken as a range of characters of the text that the
report is given. If the place is beyond that text, only the message is shown.
-/
import RichContent.Selector.Error
import RichContent.Text.Width

namespace RichContent.Selector.Report

open Text

/-! ## Colours and strokes -/

inductive Color where
  | red
  | palette (n : Nat)
deriving DecidableEq, Repr

/-- The parameters of the control sequence that switches to a colour. -/
def Color.code : Color → Text
  | red => "31".toList
  | palette n => "38;5;".toList ++ numeral n

def paint (color : Color) (t : Text) : Text :=
  "\x1b[".toList ++ color.code ++ 'm' :: t ++ "\x1b[0m".toList

def frame : Color := .palette 246

/-- The colour of frames beside lines that are not shown. -/
def faint : Color := .palette 240

/-- The colour of characters outside the place of the error. -/
def dim : Color := .palette 249

def mark : Color := .red

def blanks (n : Nat) : Text := List.replicate n ' '

/-! ## Lines -/

/-- A line of the text: its number counted from nought, the character it begins at, and its
characters, the ending included. -/
structure Line where
  index : Nat
  start : Nat
  text : Text
deriving DecidableEq, Repr

namespace Line

def stop (l : Line) : Nat := l.start + l.text.length

def holds (l : Line) (n : Nat) : Bool := l.start ≤ n && n < l.stop

def shown (l : Line) : Text := trimEnd l.text

end Line

def isLineEnd (c : Char) : Bool :=
  c == '\r' || c == '\n' || c == '\x0b' || c == '\x0c' || c == '\u0085' || c == '\u2028'
    || c == '\u2029'

/-- The first line of a text that begins with `c`, and what follows it. A carriage return and a
line feed are one ending. -/
def firstLine (c : Char) : Text → Text × Text
  | [] => ([c], [])
  | d :: rest =>
    if c = '\r' ∧ d = '\n' then ([c, d], rest)
    else if isLineEnd c then ([c], d :: rest)
    else
      let (line, after) := firstLine d rest
      (c :: line, after)

theorem length_firstLine_after (c : Char) (t : Text) :
    (firstLine c t).2.length ≤ t.length := by
  induction t generalizing c with
  | nil => simp [firstLine]
  | cons d t ih =>
    rw [firstLine]
    split
    · simp
    · split
      · simp
      · exact Nat.le_succ_of_le (ih d)

/-- The lines of a text, the first of which has the given number and beginning. -/
def lines (index start : Nat) : Text → List Line
  | [] => []
  | c :: rest =>
    ⟨index, start, (firstLine c rest).1⟩ ::
      lines (index + 1) (start + (firstLine c rest).1.length) (firstLine c rest).2
termination_by t => t.length
decreasing_by
  have := length_firstLine_after c rest
  simp only [List.length_cons]
  omega

/-- The line of a character; the end of the text counts as part of the last line. -/
def lineAt? (source : Text) (n : Nat) : Option Line :=
  if n ≤ source.length then ((lines 0 0 source).filter (·.start ≤ n)).getLast? else none

/-! ## Cells -/

def tabWidth : Nat := 4

/-- What is shown for the character in a column, and how wide it is. -/
def cell (column : Nat) (c : Char) : Char × Nat :=
  if c = '\t' then (' ', tabWidth - column % tabWidth)
  else if isWhiteSpace c then (' ', 1)
  else (c, columns c)

/-- The characters of a line from a column on, with those of the place in its colour. -/
def paintChars (place : Span) (start : Nat) (column : Nat) : Text → Text
  | [] => []
  | c :: rest =>
    let color := if place.start ≤ start + column ∧ start + column < place.stop then mark else dim
    let (shown, width) := cell column c
    let copies := if isWhiteSpace c then width else 1
    (List.replicate copies (paint color [shown])).flatten ++ paintChars place start (column + 1) rest

/-- The text of one column of a row of strokes: what stands first in it and what fills it up to
its width. -/
def fill (first more : Text) : (width : Nat) → Text
  | 0 => []
  | width + 1 => first ++ (List.replicate width more).flatten

/-- A row of strokes below the characters of a line, from a column on: `stroke` gives what stands
first in a column and what fills it up. Beyond the line, columns have width one. -/
def strokes (stroke : Nat → Text × Text) (column : Nat) : (count : Nat) → Text → Text
  | 0, _ => []
  | count + 1, [] =>
    fill (stroke column).1 (stroke column).2 1 ++ strokes stroke (column + 1) count []
  | count + 1, c :: rest =>
    fill (stroke column).1 (stroke column).2 (cell column c).2
      ++ strokes stroke (column + 1) count rest

/-! ## Rows -/

/-- What the rows of a report have in common. -/
structure Layout where
  source : Text
  place : Span
  numberWidth : Nat
  label : Text

namespace Layout

def lineMargin (f : Layout) (l : Line) : Text :=
  let number := numeral (l.index + 1)
  ' ' :: paint frame (blanks (f.numberWidth - number.length) ++ number ++ " │".toList) ++ [' ']

/-- The margin of any other row; `bar` is its stroke. -/
def margin (f : Layout) (bar : Char) : Text :=
  ' ' :: paint faint (blanks (f.numberWidth + 1) ++ [bar]) ++ [' ']

def chars (f : Layout) (l : Line) : Text := paintChars f.place l.start 0 l.shown

def stroke (c : Char) : Text := paint mark [c]

/-- Marks the place below its line, with the message under the middle of it. -/
def inlineRows (f : Layout) (l : Line) : List Text :=
  let middle := (f.place.start + f.place.stop) / 2 - l.start
  let count := f.place.stop - l.start + 2
  let inside (column : Nat) : Bool :=
    f.place.start ≤ l.start + column && l.start + column < f.place.stop
  let under (column : Nat) : Text × Text :=
    if column = middle then
      if inside column then (stroke '┬', stroke '─') else (stroke '│', stroke ' ')
    else if inside column then (stroke '─', stroke '─')
    else ([' '], [' '])
  let lead (column : Nat) : Text × Text :=
    if column = middle then (stroke '╰', stroke '─')
    else if middle < column then (stroke '─', stroke '─')
    else ([' '], [' '])
  [f.lineMargin l ++ f.chars l,
    f.margin '│' ++ strokes under 0 count l.shown,
    f.margin '│' ++ strokes lead 0 count l.shown ++ ' ' :: f.label]

def openingRow (f : Layout) (l : Line) : Text :=
  f.lineMargin l ++ stroke '╭' ++ stroke '─' ++ stroke '▶' ++ stroke ' ' ++ f.chars l

/-- What stands for the lines between the first and the last. -/
def gapRow (f : Layout) : Text := f.margin '┆' ++ stroke '┆' ++ blanks 3

/-- The last line of a place of several lines, and the message. -/
def closingRows (f : Layout) (l : Line) : List Text :=
  let count := l.text.length + 2
  [f.lineMargin l ++ stroke '├' ++ stroke '─' ++ stroke '▶' ++ stroke ' ' ++ f.chars l,
    f.margin '│' ++ stroke '│' ++ blanks 3 ++ strokes (fun _ => ([' '], [' '])) 0 count l.shown,
    f.margin '│' ++ stroke '╰' ++ stroke '─' ++ stroke '─' ++ stroke '─'
      ++ strokes (fun _ => (stroke '─', stroke '─')) 0 count l.shown ++ ' ' :: f.label]

/-- The rows of a place within one line; a place that goes beyond its line is not marked. -/
def withinLine (f : Layout) (l : Line) : List Text :=
  if l.start ≤ f.place.start ∧ f.place.stop ≤ l.stop then f.inlineRows l else [f.margin '│']

def acrossLines (f : Layout) (first last : Line) : List Text :=
  let ends := last.holds (f.place.stop - 1)
  let between := last.index - first.index - (if ends then 1 else 0)
  f.openingRow first :: (if between = 0 then [] else [f.gapRow])
    ++ (if ends then f.closingRows last else [])

end Layout

/-! ## Reports -/

def sourceName : Text := "selector".toList

/-- The rows for the place of an error, if it is in the text. -/
def section? (source : Text) (e : Error) : Option (List Text) := do
  let place := e.span
  let first ← lineAt? source place.start
  let last ← if place.stop ≤ place.start then pure first else lineAt? source (place.stop - 1)
  let expected := match e.expected with
    | [] => []
    | xs => "\nExpected: ".toList ++ (", ".toList).intercalate (xs.map Expectation.describe)
  let f : Layout :=
    { source, place, numberWidth := (numeral (last.index + 1)).length
      label := e.obstacle.reason ++ expected }
  let location := ':' :: numeral (first.index + 1) ++ ':' :: numeral (place.start - first.start + 1)
  let indent := blanks (f.numberWidth + 2)
  let top := indent ++ paint frame ['╭'] ++ paint frame ['─'] ++ paint frame ['['] ++ sourceName
    ++ location ++ paint frame [']']
  let rows := if first.index = last.index then f.withinLine first else f.acrossLines first last
  let bottom := paint frame (List.replicate (f.numberWidth + 2) '─' ++ ['╯'])
  pure (top :: (indent ++ paint frame ['│']) :: rows ++ [bottom])

end Report

def Error.headline (e : Error) : Text := Report.paint .red "Error:".toList ++ ' ' :: e.obstacle.reason

def Error.report (source : Text) (e : Error) : Text :=
  (e.headline :: (Report.section? source e).getD []).flatMap (· ++ ['\n'])

end RichContent.Selector
