/-
One use of an editor: its id, its configuration, how it is displayed, the
files of the content, and its tools.

The tools are found once, when the instance is built, from the ids that the
configuration lists; an id that no tool answers to is left out.
-/
import RichContent.Editor.Arguments
import RichContent.Editor.File
import RichContent.Editor.Host

namespace RichContent

inductive RenderMode where
  /-- The content input and the script that activates the editor. -/
  | full (arguments : Arguments)
  /-- Nothing but the assets of the tools. -/
  | scriptOnly
deriving DecidableEq, Repr

structure InstancePlan where
  id : Text
  config : Option Fields := none
  mode : RenderMode := .full {}
  files : List AttachedFile := []

structure Instance extends InstancePlan where
  tools : List Tool

/-- The ids of tools that a configuration lists, as an array or as text with commas. -/
def configuredTools (config : Fields) : List Text :=
  match config.lookup "tools".toList with
  | some (.arr items) => items.filterMap Json.text?
  | some (.str t) => (Text.commaParts t).filter (· ≠ [])
  | _ => []

namespace InstancePlan

def toolIds (p : InstancePlan) : List Text := (p.config.map configuredTools).getD []

/-- Builds the instance, finding its tools in order. -/
def build (p : InstancePlan) (lookup : ToolLookup) : Traced Instance := do
  let found ← Traced.forEach (fun id => lookup.ask .host (id, p.id)) p.toolIds
  pure { p with tools := found.filterMap fun tool => tool }

def buildWithoutTools (p : InstancePlan) : Instance := { p with tools := [] }

end InstancePlan

namespace Instance

def isScriptOnly (i : Instance) : Bool := i.mode == .scriptOnly

def display (i : Instance) : Display :=
  match i.mode with
  | .full arguments => arguments.resolve
  | .scriptOnly => {}

def scopeOf (id : Text) : Text := "editor.".toList ++ id

def toolIds (i : Instance) : List Text := i.tools.map (·.descriptor.id)

def loadTools (i : Instance) : Traced Unit := do
  let _ ← Traced.forEach (fun tool => tool.load.ask .host ()) i.tools
  pure ()

end Instance

namespace ToolDescriptor

/-- The descriptor as fields, in the order in which they are written. -/
def fields (d : ToolDescriptor) : Fields :=
  ("id".toList, .str d.id) :: AttachedFile.field "name" .str d.name
    ++ (if d.options.isEmpty then [] else [("options".toList, .obj d.options)])

def json (d : ToolDescriptor) : Json := .obj d.fields

end ToolDescriptor

end RichContent
