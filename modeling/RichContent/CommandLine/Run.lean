/-
Doing what is asked for on the command line.

Settings are read first, then the editor is built, and only then is content
read, if it is wanted at all. Reading happens in any monad, so that what
follows from what was read can be told without it.
-/
import RichContent.CommandLine.Request
import RichContent.CommandLine.Source
import RichContent.Editor.Session
import RichContent.Selector.Report
import RichContent.Settings

namespace RichContent

inductive RequestError where
  | settingsUnreadable (path : Text) (failure : ReadFailure)
  | settingsInvalid (path : Text)
  | contentUnreadable (source : Source) (failure : ReadFailure)
  | editor (error : EditorError)

/-- The error as it is reported. That of a selector is reported with its place. -/
def RequestError.report : RequestError → Text
  | settingsUnreadable path failure =>
    "Error loading settings '".toList ++ path ++ "': Failed to read settings file: ".toList
      ++ failure.message ++ ['\n']
  | settingsInvalid path =>
    "Error loading settings '".toList ++ path ++ "': Failed to parse settings TOML: ".toList
      ++ "invalid document\n".toList
  | contentUnreadable (.file path) failure =>
    "Error reading file '".toList ++ path ++ "': ".toList ++ failure.message ++ ['\n']
  | contentUnreadable .standardInput failure =>
    "Error reading from stdin: ".toList ++ failure.message ++ ['\n']
  | editor (.selector text error) => error.report text
  | editor error => "Error: ".toList ++ error.message ++ ['\n']

structure Outcome where
  code : Nat := 0
  output : Text := []
  errors : Text := []
deriving DecidableEq, Repr

namespace Outcome

def printed (t : Text) : Outcome := { output := t ++ ['\n'] }

def failed (e : RequestError) : Outcome := { code := 1, errors := e.report }

def ofResult {α : Type} (write : α → Text) : Except EditorError α → Outcome
  | .ok a => printed (write a)
  | .error e => failed (.editor e)

end Outcome

namespace Request

variable {m : Type → Type} [Monad m] (read : Source → m (Except ReadFailure Text))

/-- The settings that a request names; without any they have their defaults. -/
def settings (r : Request) : m (Except RequestError Settings) :=
  match r.config with
  | none => pure (.ok {})
  | some path => do
    match ← read (.file path) with
    | .error failure => pure (.error (.settingsUnreadable path failure))
    | .ok document =>
      match Settings.parse? document with
      | some s => pure (.ok s)
      | none => pure (.error (.settingsInvalid path))

def source (r : Request) : Source := (r.input.map Source.file).getD .standardInput

/-- What an editor makes of a request, after the calls made before. -/
def answer (r : Request) (past : History) (e : Editor) : m Outcome :=
  if r.options then
    pure (.ofResult (fun fields => (Json.obj fields).pretty 0) (e.options past).result)
  else if r.render then pure (.ofResult id (e.render past).result)
  else do
    match ← read r.source with
    | .error failure => pure (.failed (.contentUnreadable r.source failure))
    | .ok content => pure (.ofResult id (e.compile content past).result)

def run (r : Request) : m Outcome := do
  match ← r.settings read with
  | .error e => pure (.failed e)
  | .ok s =>
    match s.build [] with
    | ⟨_, .error e⟩ => pure (.failed (.editor e))
    | ⟨calls, .ok e⟩ => r.answer read calls e

end Request

namespace CommandLine

def usage : Text :=
  ("Compile rich editor content into displayable HTML\n\n"
    ++ "Usage: rich-content [OPTIONS] [INPUT]\n\n"
    ++ "Arguments:\n  [INPUT]  Input file (reads from stdin if not provided)\n\n"
    ++ "Options:\n  -c, --config <CONFIG>  Editor settings file (TOML format)\n"
    ++ "  -r, --render           Print the editor markup instead of compiling content\n"
    ++ "  -o, --options          Print the client options payload as JSON\n"
    ++ "  -d, --debug            Log pipeline stages to stderr\n"
    ++ "  -h, --help             Print help\n").toList

def run {m : Type → Type} [Monad m] (read : Source → m (Except ReadFailure Text))
    (arguments : List Text) : m Outcome :=
  match Request.read {} arguments with
  | .request r => r.run read
  | .help => pure { output := usage }
  | .invalid => pure { code := 2, errors := "error: invalid arguments\n\n".toList ++ usage }

end CommandLine

end RichContent
