/-
The names that content and the client editor agree on: the fields of the form,
the classes that mark inline entities, and the attributes that identify them.

Each kind of inline entity has a selector that is made from the names. A name
that is no name to selectors makes a selector that means something else or
nothing.
-/
import RichContent.Record

namespace RichContent

/-- The names of form fields, marker classes and identifying attributes. -/
structure Markers where
  fileInput : Text := "_files".toList
  tagInput : Text := "_tags".toList
  mentionInput : Text := "_mentions".toList
  imageClass : Text := "__xe_image".toList
  tagClass : Text := "__xe_hashtag".toList
  mentionClass : Text := "__xe_mention".toList
  imageIdentifier : Text := "data-id".toList
  mentionIdentifier : Text := "data-id".toList
deriving DecidableEq, Repr

namespace Markers

def hashtagSelector (m : Markers) : Text := '.' :: m.tagClass

def mentionSelector (m : Markers) : Text :=
  '.' :: m.mentionClass ++ '[' :: m.mentionIdentifier ++ [']']

def imageSelector (m : Markers) : Text :=
  "img.".toList ++ m.imageClass ++ '[' :: m.imageIdentifier ++ [']']

def fieldNames : List Text :=
  ["file_input".toList, "tag_input".toList, "mention_input".toList, "image_class".toList,
    "tag_class".toList, "mention_class".toList, "image_identifier".toList,
    "mention_identifier".toList]

/-- Reads the names; one that is left out has its default. -/
def read? {σ : Type} [Datum σ] (v : σ) : Option Markers := do
  let fields ← Record.fields? fieldNames v
  let name := fun field default => Record.defaulted? fields field Datum.text? default
  let d : Markers := {}
  pure
    { fileInput := ← name "file_input" d.fileInput
      tagInput := ← name "tag_input" d.tagInput
      mentionInput := ← name "mention_input" d.mentionInput
      imageClass := ← name "image_class" d.imageClass
      tagClass := ← name "tag_class" d.tagClass
      mentionClass := ← name "mention_class" d.mentionClass
      imageIdentifier := ← name "image_identifier" d.imageIdentifier
      mentionIdentifier := ← name "mention_identifier" d.mentionIdentifier }

def json (m : Markers) : Json :=
  .ofTexts
    [("file_input", m.fileInput), ("tag_input", m.tagInput), ("mention_input", m.mentionInput),
      ("image_class", m.imageClass), ("tag_class", m.tagClass),
      ("mention_class", m.mentionClass), ("image_identifier", m.imageIdentifier),
      ("mention_identifier", m.mentionIdentifier)]

end Markers

end RichContent
