/-
Compiling content: the markup that is displayed for what was written in an
editor.

The content is parsed once. Hashtags, mentions, links and images are expanded
one kind after the other; a node is expanded in place, and what was put in its
place is never looked at again. The format makes the result displayable, and
the list of attached files comes after it.
-/
import RichContent.Editor.Basic
import RichContent.Editor.Extract

namespace RichContent

open Text

def Document.replaceAll (d : Document) (fragments : List (NodeId × Fragment)) : Document :=
  fragments.foldl (fun d (id, f) => d.replace id f) d

namespace Compile

/-! ## What takes the place of an inline entity -/

/-- A text without one character in front, if it is there. -/
def dropMark (mark : Char) : Text → Text
  | [] => []
  | c :: rest => if c = mark then rest else c :: rest

def hashtag (m : Markers) (e : Entity) : Fragment :=
  let word := dropMark '#' e.text
  { html := "<a href=\"#".toList ++ escape word ++ "\" class=\"".toList ++ escape m.tagClass
      ++ "\">#".toList ++ escape word ++ "</a>".toList
    text := '#' :: word }

def mention (m : Markers) (e : Entity) : Fragment :=
  let name := dropMark '@' e.text
  let user := (e.value? m.mentionIdentifier).getD []
  { html := "<span role=\"button\" class=\"".toList ++ escape m.mentionClass
      ++ "\" data-toggle=\"xeUserMenu\" data-user-id=\"".toList ++ escape user ++ "\">@".toList
      ++ escape name ++ "</span>".toList
    text := '@' :: name }

def image (m : Markers) (id url : Text) : Fragment :=
  { html := "<img src=\"".toList ++ escape url ++ "\" class=\"".toList ++ escape m.imageClass
      ++ "\" data-id=\"".toList ++ escape id ++ "\" />".toList
    text := [] }

/-! ## Stages -/

def markerSelector (text : Text) : Traced Selector :=
  Traced.ofExcept (Selector.read text)

def hashtags (m : Markers) (d : Document) : Traced Document := do
  let selector ← markerSelector m.hashtagSelector
  pure (d.replaceAll ((d.entities selector []).map fun (p, e) => (p.id, hashtag m e)))

def mentions (m : Markers) (d : Document) : Traced Document := do
  let selector ← markerSelector m.mentionSelector
  let found := d.entities selector [m.mentionIdentifier]
  pure (d.replaceAll (found.map fun (p, e) => (p.id, mention m e)))

def links (f : ContentFormat) (d : Document) : Traced Document := do
  let fragments ← f.links.ask id d
  pure (d.replaceAll fragments)

/-- The URL for an id: that of the last answer for it. -/
def urlOf? (answers : List ResolvedImage) (id : Text) : Option Text :=
  (answers.reverse.find? (·.key == id)).map (·.url)

/-- What takes the place of the images, if there is an answer for every one. -/
def imageFragments (m : Markers) (answers : List ResolvedImage) :
    List (NodeId × Text) → Except EditorError (List (NodeId × Fragment))
  | [] => .ok []
  | (node, id) :: rest =>
    match urlOf? answers id with
    | none => .error (.missingImage id)
    | some url => (imageFragments m answers rest).map ((node, image m id url) :: ·)

/-- Expands the images. The resolver is asked once for all of them, and not at all if there
is none. -/
def images (m : Markers) (registry : ImageRegistry) (d : Document) : Traced Document := do
  -- read before it is known if there is an image, so it fails without one too
  let selector ← markerSelector m.imageSelector
  match d.entities selector [m.imageIdentifier] with
  | [] => pure d
  | found =>
    let ids := found.map fun (p, e) => (p.id, (e.value? m.imageIdentifier).getD [])
    let answers ← registry.resolve (ids.map (·.2))
    let fragments ← Traced.ofExcept (imageFragments m answers ids)
    pure (d.replaceAll fragments)

def filesView : Text := "files".toList

def filesData (files : List AttachedFile) : Json :=
  .ofFields [("files", .arr (files.map (·.json)))]

/-- The list of attached files, if there are any. -/
def fileList (host : Host) (files : List AttachedFile) : Traced Text :=
  match files with
  | [] => pure []
  | files => host.view.ask .host (filesView, filesData files)

end Compile

def Editor.expand (e : Editor) (content : Text) : Traced Document := do
  let d ← Compile.hashtags e.markers (Document.parse content)
  let d ← Compile.mentions e.markers d
  let d ← Compile.links e.format d
  Compile.images e.markers e.images d

/-- The markup that is displayed for some content. -/
def Editor.compile (e : Editor) (content : Text) : Traced Text := do
  let d ← e.expand content
  let body ← e.format.body.ask .host d.html
  let files ← Compile.fileList e.host e.inst.files
  pure (body ++ files)

end RichContent
