/-
What is asked for on the command line.

There is at most one input, and no option may be given twice. Options of one
letter can be written together; the value of one may follow it at once or as
the next argument. After `--` nothing is an option. The first thing that is
wrong, or a request for help, ends the reading.
-/
import RichContent.Text.Basic

namespace RichContent

open Text

structure Request where
  /-- The file to read content from; without one it comes from the standard input. -/
  input : Option Text := none
  config : Option Text := none
  /-- Render the editor instead of compiling content. -/
  render : Bool := false
  options : Bool := false
  debug : Bool := false
deriving DecidableEq, Repr

namespace Request

inductive Step where
  | next (r : Request)
  /-- The next argument is the name of the settings file. -/
  | awaitConfig (r : Request)
  | onlyInputs
  | help
  | invalid
deriving DecidableEq, Repr

/-- With an input; there can be one only. -/
def addInput (r : Request) (file : Text) : Step :=
  if r.input.isSome ∨ file = [] then .invalid else .next { r with input := some file }

def addConfig (r : Request) (file : Text) : Step :=
  if r.config.isSome ∨ file = [] then .invalid else .next { r with config := some file }

def addFlag (r : Request) (letter : Char) : Step :=
  match letter with
  | 'r' => if r.render then .invalid else .next { r with render := true }
  | 'o' => if r.options then .invalid else .next { r with options := true }
  | 'd' => if r.debug then .invalid else .next { r with debug := true }
  | 'h' => .help
  | _ => .invalid

/-- Options of one letter, written together. -/
def addLetters (r : Request) : Text → Step
  | [] => .next r
  | 'c' :: [] => .awaitConfig r
  | 'c' :: '=' :: file => r.addConfig file
  | 'c' :: file => r.addConfig file
  | letter :: rest =>
    match r.addFlag letter with
    | .next r => addLetters r rest
    | other => other

def addLong (r : Request) (option : Text) : Step :=
  if option = "config".toList then .awaitConfig r
  else if option = "render".toList then r.addFlag 'r'
  else if option = "options".toList then r.addFlag 'o'
  else if option = "debug".toList then r.addFlag 'd'
  else if option = "help".toList then r.addFlag 'h'
  else match after? "config=".toList option with
    | some file => r.addConfig file
    | none => .invalid

def add (r : Request) : Text → Step
  | '-' :: '-' :: [] => .onlyInputs
  | '-' :: '-' :: option => r.addLong option
  | '-' :: letter :: rest => r.addLetters (letter :: rest)
  | file => r.addInput file

def isValue : Text → Bool
  | '-' :: _ :: _ => false
  | _ => true

inductive Reading where
  | request (r : Request)
  | help
  | invalid
deriving DecidableEq, Repr

def readInputs (r : Request) : List Text → Reading
  | [] => .request r
  | file :: rest =>
    match r.addInput file with
    | .next r => readInputs r rest
    | _ => .invalid

/-- The arguments of a command line, after those of `r`. -/
def read (r : Request) : List Text → Reading
  | [] => .request r
  | argument :: rest =>
    match r.add argument with
    | .next r => read r rest
    | .awaitConfig r =>
      match rest with
      | [] => .invalid
      | file :: rest =>
        if isValue file then
          match r.addConfig file with
          | .next r => read r rest
          | _ => .invalid
        else .invalid
    | .onlyInputs => readInputs r rest
    | .help => .help
    | .invalid => .invalid

end Request

end RichContent
