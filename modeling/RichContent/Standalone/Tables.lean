/-
A host that is made of tables, for an editor that runs by itself: routes,
permissions, images and tools are looked up, and there is one view, the list
of attached files.
-/
import RichContent.Editor.Compile
import RichContent.Standalone.FileSize

namespace RichContent

open Text

def Text.withoutEndSlashes (t : Text) : Text := trimEndWhere (· == '/') t

/-- Routes with their URLs. A route that is not listed has a URL made of its name, unless the
table is strict. -/
structure RouteTable where
  urls : List (Text × Text) := []
  /-- What comes before a URL that is made of a name. -/
  base : Text := []
  strict : Bool := false

namespace RouteTable

/-- The URL made of a name: its parts, which points separate, as a path. -/
def derived (r : RouteTable) (name : Text) : Text :=
  withoutEndSlashes r.base ++ '/' :: name.map fun c => if c = '.' then '/' else c

def route (r : RouteTable) (name : Text) : Except Failure Text :=
  match r.urls.lookup name with
  | some url => .ok url
  | none =>
    if r.strict then .error ("route [".toList ++ name ++ "] not defined".toList)
    else .ok (r.derived name)

end RouteTable

/-- The abilities that are granted; one that is not listed is denied. -/
abbrev PermissionTable := List (Text × Bool)

/-- Is an ability granted? The scope makes no difference. -/
def PermissionTable.allows (p : PermissionTable) (ability : Text) : Bool :=
  (p.lookup ability).getD false

/-- Images with their URLs. An image that is not listed has a URL made of its id, if there is
something to put before it. -/
structure ImageTable where
  urls : List (Text × Text) := []
  baseUrl : Option Text := none

namespace ImageTable

def url? (t : ImageTable) (id : Text) : Option Text :=
  match t.urls.lookup id with
  | some url => some url
  | none => t.baseUrl.map fun base => withoutEndSlashes base ++ '/' :: id

def resolve (t : ImageTable) (ids : List Text) : List ResolvedImage :=
  ids.filterMap fun id => (t.url? id).map fun url => ⟨id, url⟩

def resolver (t : ImageTable) : ImageResolver := .always fun ids => .ok (t.resolve ids)

end ImageTable

abbrev ToolCatalog := List (Text × Tool)

namespace ToolCatalog

/-- The catalog of some tools; of several with one id the last stays. -/
def ofTools (tools : List Tool) : ToolCatalog :=
  Table.ofList (tools.map fun t => (t.descriptor.id, t))

def lookup (c : ToolCatalog) : ToolLookup := .always fun (id, _) => .ok (List.lookup id c)

end ToolCatalog

namespace FileListView

def item (f : AttachedFile) : Text :=
  let size := match f.size with
    | some n => " (".toList ++ FileSize.describe n ++ [')']
    | none => []
  "<li data-id=\"".toList ++ escape f.id ++ "\">".toList ++ escape f.filename ++ size
    ++ "</li>".toList

def list (files : List AttachedFile) : Text :=
  "<ul class=\"xe-editor-files\">".toList ++ files.flatMap item ++ "</ul>".toList

/-- The files that the data of the view holds, if they can be read; without a field for them
there are none. -/
def files? (data : Json) : Option (List AttachedFile) :=
  match data.get? "files".toList with
  | some files => Record.list? AttachedFile.read? files
  | none => some []

/-- The view of a name with its data; the list of files is the only one. -/
def render (view : Text) (data : Json) : Except Failure Text :=
  if view = Compile.filesView then
    match files? data with
    | some files => .ok (list files)
    | none => .error "invalid file list".toList
  else .error ("view [".toList ++ view ++ "] not found".toList)

end FileListView

def Host.ofTables (routes : RouteTable) (permissions : PermissionTable) : Host where
  route := .always routes.route
  allows := .always fun (ability, _) => .ok (permissions.allows ability)
  view := .always fun (name, data) => FileListView.render name data

end RichContent
