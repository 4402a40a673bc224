/-
Editors: an instance, a format, the names of markers, the host, and the
resolver of images once there is one.

Compiling and rendering change nothing, so an editor can be used any number of
times. Two things can change: the attached files, and the resolver of images,
which can be set once.
-/
import RichContent.Editor.Format

namespace RichContent

structure ImageRegistry where
  resolver? : Option ImageResolver := none

namespace ImageRegistry

def isRegistered (r : ImageRegistry) : Bool := r.resolver?.isSome

/-- Sets the resolver, which can be done once. -/
def register (r : ImageRegistry) (resolver : ImageResolver) : Except EditorError ImageRegistry :=
  match r.resolver? with
  | some _ => .error (.configuration .secondResolver)
  | none => .ok ⟨some resolver⟩

/-- The ids without repetitions, in the order in which they first occur; those in `seen` have
occurred before. -/
def firstSeen (seen : List Text) : List Text → List Text
  | [] => []
  | id :: rest =>
    if seen.contains id then firstSeen seen rest else id :: firstSeen (id :: seen) rest

def distinct (ids : List Text) : List Text := firstSeen [] ids

/-- Resolves all ids with one call. -/
def resolve (r : ImageRegistry) (ids : List Text) : Traced (List ResolvedImage) :=
  match r.resolver? with
  | none => Traced.fail (.configuration .noResolver)
  | some resolver => resolver.ask .host (distinct ids)

end ImageRegistry

structure Editor where
  inst : Instance
  format : ContentFormat
  markers : Markers
  host : Host
  images : ImageRegistry := {}

namespace Editor

/-- An editor with the marker names of its format. -/
def new (inst : Instance) (format : ContentFormat) (host : Host) : Editor :=
  { inst, format, host, markers := format.markers }

def setFiles (e : Editor) (files : List AttachedFile) : Editor :=
  { e with inst := { e.inst with files } }

def registerImages (e : Editor) (resolver : ImageResolver) : Except EditorError Editor :=
  (e.images.register resolver).map fun images => { e with images }

end Editor

end RichContent
