/-
Rendering an editor: the content input and the script that activates the
client editor on it.
-/
import RichContent.Editor.Options
import RichContent.Json.Printer
import RichContent.Text.Reference

namespace RichContent

open Text

namespace Render

def printAttribute (name value : Text) : Text :=
  ' ' :: escape name ++ "=\"".toList ++ escape value ++ ['"']

def input (d : Display) : Text :=
  "<textarea".toList ++ printAttribute "name".toList d.domName ++ printAttribute "id".toList d.domId
    ++ d.domOptions.flatMap (fun (name, value) => printAttribute name value)
    ++ printAttribute "placeholder".toList d.placeholder
    ++ '>' :: escape d.content ++ "</textarea>".toList

/-- The text with a backslash in every `</`, so that it ends no element. -/
def guardEndTags : Text → Text
  | [] => []
  | '<' :: '/' :: rest => '<' :: '\\' :: '/' :: guardEndTags rest
  | c :: rest => c :: guardEndTags rest

/-- JSON that may stand in a script. -/
def scriptJson (j : Json) : Text := guardEndTags j.print

def script (format domId : Text) (options custom : Fields) (tools : List ToolDescriptor) : Text :=
  "<script>\n    $(function() \x7b\n        XEeditor.getEditor(".toList
    ++ scriptJson (.str format) ++ ").create(".toList ++ scriptJson (.str domId) ++ ", ".toList
    ++ scriptJson (.obj options) ++ ", ".toList ++ scriptJson (.obj custom) ++ ", ".toList
    ++ scriptJson (.arr (tools.map (·.json))) ++ ");\n    \x7d);\n</script>".toList

end Render

/-- The markup of the editor. The tools are loaded every time; a script-only instance has no
markup. -/
def Editor.render (e : Editor) : Traced Text := do
  e.inst.loadTools
  if e.inst.isScriptOnly then pure []
  else
    let d := e.inst.display
    let options ← e.options
    let tools := e.inst.tools.map (·.descriptor)
    pure (Render.input d
      ++ Render.script e.format.name d.domId options e.format.customOptions tools)

end RichContent
