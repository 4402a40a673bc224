/-
The options that the client editor is activated with.

Seven of them the editor decides itself. The configuration of the instance and
the format may add others; they cannot replace one of the seven, and where
both have an option the format's stays.
-/
import RichContent.Editor.Basic

namespace RichContent

namespace Options

/-- The options that the editor decides itself. -/
def baseKeys : List Text :=
  ["fileUpload".toList, "suggestion".toList, "names".toList, "perms".toList, "files".toList,
    "fontFamily".toList, "extensions".toList]

def fileRoutes : List (Text × Text) :=
  [("upload_url".toList, "editor.file.upload".toList),
    ("source_url".toList, "editor.file.source".toList),
    ("download_url".toList, "editor.file.download".toList),
    ("destroy_url".toList, "editor.file.destroy".toList)]

def suggestionRoutes : List (Text × Text) :=
  [("hashtag_api".toList, "editor.hashTag".toList),
    ("mention_api".toList, "editor.mention".toList)]

/-- The abilities that the client editor wants to know of. -/
def abilities : List Text := ["html".toList, "tool".toList, "upload".toList]

def routes (host : Host) (names : List (Text × Text)) : Traced Json := do
  let urls ← Traced.forEach
    (fun (option, name) => do
      let url ← host.route.ask .host name
      pure (option, Json.str url)) names
  pure (.obj (Table.ofList urls))

def permissions (host : Host) (scope : Text) : Traced Json := do
  let granted ← Traced.forEach
    (fun ability => do
      let allowed ← host.allows.ask .host (ability, scope)
      pure (ability, Json.bool allowed)) abilities
  pure (.obj (Table.ofList granted))

def names (m : Markers) : Json :=
  .ofFields
    [("file", .ofFields
        [("input", .str m.fileInput),
          ("image", .ofTexts [("class", m.imageClass), ("identifier", m.imageIdentifier)])]),
      ("tag", .ofTexts [("input", m.tagInput), ("class", m.tagClass)]),
      ("mention", .ofTexts
        [("input", m.mentionInput), ("class", m.mentionClass),
          ("identifier", m.mentionIdentifier)])]

/-- A setting that is a list: an array as it is, or the parts of a text with commas. -/
def listSetting : Option Json → Json
  | some (.str t) => .texts (Text.commaParts t)
  | some (.arr items) => .arr items
  | _ => .arr []

/-- Adds further options, none of which may be one of the editor's own. -/
def merge (options : Fields) (further : Fields) : Fields :=
  further.foldl
    (fun options (key, value) =>
      if baseKeys.contains key then options else Table.insert key value options)
    options

end Options

namespace Editor

open Options

def baseOptions (e : Editor) : Traced Fields := do
  let config := e.inst.config.getD []
  let upload ← routes e.host fileRoutes
  let suggestion ← routes e.host suggestionRoutes
  let perms ← permissions e.host (Instance.scopeOf e.inst.id)
  pure (Table.ofList
    [("fileUpload".toList, upload), ("suggestion".toList, suggestion),
      ("names".toList, names e.markers),
      ("fontFamily".toList, listSetting (config.lookup "fontFamily".toList)),
      ("extensions".toList, listSetting (config.lookup "extensions".toList)),
      ("perms".toList, perms),
      ("files".toList, .arr (e.inst.files.map (·.json)))])

/-- The options that the client editor is activated with. -/
def options (e : Editor) : Traced Fields := do
  let base ← e.baseOptions
  let config := (e.inst.config.getD []).filter fun (key, _) => key != "tools".toList
  pure (merge (merge base config) (e.format.options e.inst))

end Editor

end RichContent
