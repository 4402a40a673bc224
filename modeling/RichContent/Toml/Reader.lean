/-
Reading TOML documents.

A document is read statement by statement: comments, headers, and entries,
each on a line of its own. Arrays may go over several lines, tables in braces
may not. Arrays and tables are nested less than eighty deep, and a dotted key
has less than eighty parts.
-/
import RichContent.Toml.Quoted
import RichContent.Toml.Scalar
import RichContent.Toml.Tree

namespace RichContent.Toml

open Text

/-- Nesting and dotted keys stay below this. -/
def depthLimit : Nat := 80

def skipBlanks (t : Text) : Text := t.dropWhile isBlank

def skipComment (t : Text) : Text := t.dropWhile isPrintable

/-- What follows the end of a line, where nothing but a comment stands before it. -/
def endLine? (t : Text) : Option Text :=
  let t := skipBlanks t
  let t := if t.head? = some '#' then skipComment t else t
  if t = [] then some [] else newline? t

/-- What is left after blanks, line endings and comments, as they may stand in arrays. -/
def skipSpace? : (fuel : Nat) → Text → Option Text
  | 0, t => some t
  | fuel + 1, t =>
    let t := skipBlanks t
    match t with
    | '#' :: rest => (newline? (skipComment rest)).bind (skipSpace? fuel)
    | '\n' :: rest => skipSpace? fuel rest
    | '\r' :: rest => (newline? ('\r' :: rest)).bind (skipSpace? fuel)
    | _ => some t

/-! ## Keys -/

def isKeyChar (c : Char) : Bool := c.isAlphanum || c == '-' || c == '_'

def keyPart? (t : Text) : Option (Text × Text) :=
  let t := skipBlanks t
  let part := match t with
    | '"' :: _ => quoted? t
    | '\'' :: _ => quoted? t
    | _ =>
      let name := t.takeWhile isKeyChar
      if name = [] then none else some (name, t.dropWhile isKeyChar)
  part.map fun (name, rest) => (name, skipBlanks rest)

/-- The parts of a key, with the blanks around it: those before the last, and the last. Each
part uses up one unit of `fuel`. -/
def key? : (fuel : Nat) → Text → Option ((List Text × Text) × Text)
  | 0, _ => none
  | fuel + 1, t => do
    let (part, rest) ← keyPart? t
    match rest with
    | '.' :: rest =>
      let ((path, last), rest) ← key? fuel rest
      pure ((part :: path, last), rest)
    | _ => pure (([], part), rest)

def shortKey? (t : Text) : Option ((List Text × Text) × Text) := key? (depthLimit - 1) t

/-! ## Values -/

mutual

/-- A value inside `depth` arrays and tables. Each step uses up one unit of `fuel`. -/
def value? (fuel depth : Nat) (t : Text) : Option (Value × Text) :=
  match fuel with
  | 0 => none
  | fuel + 1 =>
    match t with
    | [] => none
    | c :: rest =>
      if c = '"' ∨ c = '\'' then (anyQuoted? t).map fun (s, rest) => (.text s, rest)
      else if c = '[' then
        if depth + 1 < depthLimit then
          (items? fuel (depth + 1) rest).map fun (items, rest) => (.array items, rest)
        else none
      else if c = '\x7b' then
        if depth + 1 < depthLimit then
          match skipBlanks rest with
          | '\x7d' :: rest => some (.table [], rest)
          | rest => do
            let (entries, rest) ← fields? fuel (depth + 1) [] rest
            pure (.table (entriesValue entries), rest)
        else none
      else if c = '+' ∨ c = '-' ∨ c.isDigit then numeric? t
      else if c = 't' ∨ c = 'f' then truth? t
      else special? t

/-- The items of an array, after its bracket or a comma, up to the closing bracket. -/
def items? (fuel depth : Nat) (t : Text) : Option (List Value × Text) :=
  match fuel with
  | 0 => none
  | fuel + 1 => do
    match ← skipSpace? t.length.succ t with
    | ']' :: rest => pure ([], rest)
    | t =>
      let (v, t) ← value? fuel depth t
      match ← skipSpace? t.length.succ t with
      | ',' :: rest =>
        let (vs, rest) ← items? fuel depth rest
        pure (v :: vs, rest)
      | ']' :: rest => pure ([v], rest)
      | _ => none

def fields? (fuel depth : Nat) (entries : Entries) (t : Text) : Option (Entries × Text) :=
  match fuel with
  | 0 => none
  | fuel + 1 => do
    let ((path, key), t) ← shortKey? t
    match t with
    | '=' :: rest =>
      let (v, t) ← value? fuel depth (skipBlanks rest)
      let entries ← entries.insert? path key v
      match skipBlanks t with
      | ',' :: rest => fields? fuel depth entries rest
      | '\x7d' :: rest => pure (entries, rest)
      | _ => none
    | _ => none

end

/-! ## Documents -/

/-- What has been read of a document: its entries and the path of the last header. -/
structure Draft where
  root : Entries := []
  path : List Text := []

def Draft.insert? (d : Draft) (path : List Text) (key : Text) (v : Value) : Option Draft :=
  (d.root.modify? false (fun _ entries => entries.insert? path key v) d.path .header).map
    fun root => { d with root }

def header? (d : Draft) (t : Text) : Option (Draft × Text) :=
  match t with
  | '[' :: rest => do
    let ((path, key), t) ← shortKey? rest
    match t with
    | ']' :: ']' :: t =>
      let rest ← endLine? t
      let root ← d.root.beginNext? path key
      pure (⟨root, path ++ [key]⟩, rest)
    | _ => none
  | t => do
    let ((path, key), t) ← shortKey? t
    match t with
    | ']' :: t =>
      let rest ← endLine? t
      let root ← d.root.begin? path key
      pure (⟨root, path ++ [key]⟩, rest)
    | _ => none

def statement? (d : Draft) (t : Text) : Option (Draft × Text) := do
  let ((path, key), t) ← shortKey? t
  match t with
  | '=' :: rest =>
    let (v, t) ← value? (2 * rest.length + 2) 0 (skipBlanks rest)
    let rest ← endLine? t
    let d ← d.insert? path key v
    pure (d, rest)
  | _ => none

def statements? : (fuel : Nat) → Draft → Text → Option Draft
  | 0, _, _ => none
  | fuel + 1, d, t =>
    match skipBlanks t with
    | [] => some d
    | '#' :: rest => (endLine? ('#' :: rest)).bind (statements? fuel d)
    | '\n' :: rest => statements? fuel d rest
    | '\r' :: rest => (newline? ('\r' :: rest)).bind (statements? fuel d)
    | '[' :: rest => (header? d rest).bind fun (d, rest) => statements? fuel d rest
    | t => (statement? d t).bind fun (d, rest) => statements? fuel d rest

/-- The table that a document writes, if it is one. A byte order mark in front does not count. -/
def parse? (t : Text) : Option Value :=
  let t := match t with
    | '\ufeff' :: rest => rest
    | t => t
  (statements? t.length.succ {} t).map fun d => .table (entriesValue d.root)

end RichContent.Toml
