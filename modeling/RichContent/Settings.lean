/-
Settings of an editor that runs by itself, and the editor that they describe.

All settings have defaults. The host is made of the tables that the settings
give, and there is a resolver of images only if the settings speak of images.
-/
import RichContent.Standalone.Tables
import RichContent.Toml.Reader

namespace RichContent

structure EditorSettings where
  instanceId : Text := "default".toList
  format : Text := "html".toList
  scriptOnly : Bool := false

structure Settings where
  editor : EditorSettings := {}
  config : Option Fields := none
  arguments : Arguments := {}
  routes : RouteTable := {}
  permissions : PermissionTable := []
  images : Option ImageTable := none
  files : List AttachedFile := []
  tools : List ToolDescriptor := []
  markers : Option Markers := none

/-! ## Reading -/

open Record Datum

variable {σ : Type} [Datum σ]

def EditorSettings.read? (v : σ) : Option EditorSettings := do
  let fields ← fields? ["instance_id".toList, "format".toList, "script_only".toList] v
  let d : EditorSettings := {}
  pure
    { instanceId := ← defaulted? fields "instance_id" text? d.instanceId
      format := ← defaulted? fields "format" text? d.format
      scriptOnly := ← defaulted? fields "script_only" bool? d.scriptOnly }

def RouteTable.read? (v : σ) : Option RouteTable := do
  let fields ← fields? ["base".toList, "strict".toList, "urls".toList] v
  pure
    { base := ← defaulted? fields "base" text? []
      strict := ← defaulted? fields "strict" bool? false
      urls := ← defaulted? fields "urls" (table? text?) [] }

def ImageTable.read? (v : σ) : Option ImageTable := do
  let fields ← fields? ["base_url".toList, "urls".toList] v
  pure
    { baseUrl := ← optional? fields "base_url" text?
      urls := ← defaulted? fields "urls" (table? text?) [] }

def ToolDescriptor.read? (v : σ) : Option ToolDescriptor := do
  let fields ← fields? ["id".toList, "name".toList, "options".toList] v
  pure
    { id := ← required? fields "id" text?
      name := ← optional? fields "name" text?
      options := ← defaulted? fields "options" json? [] }

namespace Settings

def fieldNames : List Text :=
  ["editor".toList, "config".toList, "arguments".toList, "routes".toList, "permissions".toList,
    "images".toList, "files".toList, "tools".toList, "markers".toList]

def read? (v : σ) : Option Settings := do
  let fields ← fields? fieldNames v
  pure
    { editor := ← defaulted? fields "editor" EditorSettings.read? {}
      config := ← optional? fields "config" json?
      arguments := ← defaulted? fields "arguments" Arguments.read? {}
      routes := ← defaulted? fields "routes" RouteTable.read? {}
      permissions := ← defaulted? fields "permissions" (table? bool?) []
      images := ← optional? fields "images" ImageTable.read?
      files := ← defaulted? fields "files" (list? AttachedFile.read?) []
      tools := ← defaulted? fields "tools" (list? ToolDescriptor.read?) []
      markers := ← optional? fields "markers" Markers.read? }

/-- The settings that a TOML document writes. -/
def parse? (document : Text) : Option Settings := (Toml.parse? document).bind read?

/-! ## The editor -/

/-- The tools of the settings, none of which has assets of its own. -/
def catalog (s : Settings) : ToolCatalog := .ofTools (s.tools.map fun d => ⟨d, .always .ok⟩)

def plan (s : Settings) : InstancePlan where
  id := s.editor.instanceId
  config := s.config
  mode := if s.editor.scriptOnly then .scriptOnly else .full s.arguments
  files := s.files

/-- Builds the editor. The format has to be known. -/
def build (s : Settings) : Traced Editor :=
  match ContentFormat.builtin? s.editor.format with
  | none => Traced.fail (.configuration (.unknownFormat s.editor.format))
  | some format => do
    let inst ← s.plan.build s.catalog.lookup
    pure
      { inst
        format
        markers := s.markers.getD format.markers
        host := Host.ofTables s.routes s.permissions
        images := ⟨s.images.map ImageTable.resolver⟩ }

end Settings

end RichContent
