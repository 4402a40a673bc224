/-
What can be asked of one editor, over and over. Only two actions change it:
other files can be attached, and the resolver of images can be set once.
-/
import RichContent.Editor.Compile
import RichContent.Editor.Render

namespace RichContent

/-- What comes of some things that are done in a row, after the calls made before. -/
def Traced.inTurn {α : Type} (past : History) : List (Traced α) → List (Trace α)
  | [] => []
  | x :: rest => x past :: inTurn (past ++ (x past).calls) rest

namespace Editor

inductive Action where
  | compile (content : Text)
  | options
  | render
  | loadTools
  | setFiles (files : List AttachedFile)
  | registerImages (resolver : ImageResolver)

inductive Answer where
  | done
  | markup (t : Text)
  | options (fields : Fields)
  | files (files : List AttachedFile)

/-- The editor after an action, the calls it made, and its answer. An action that fails changes
nothing. -/
def perform (e : Editor) : Action → Editor × Traced Answer
  | .compile content => (e, Answer.markup <$> e.compile content)
  | .options => (e, Answer.options <$> e.options)
  | .render => (e, Answer.markup <$> e.render)
  | .loadTools => (e, (fun _ => Answer.done) <$> e.inst.loadTools)
  | .setFiles files => (e.setFiles files, pure (.files files))
  | .registerImages resolver =>
    match e.registerImages resolver with
    | .ok e => (e, pure .done)
    | .error err => (e, Traced.fail err)

def performAll (e : Editor) : List Action → Editor × List (Traced Answer)
  | [] => (e, [])
  | action :: rest =>
    let (e, answer) := e.perform action
    let (e, answers) := performAll e rest
    (e, answer :: answers)

end Editor

end RichContent
