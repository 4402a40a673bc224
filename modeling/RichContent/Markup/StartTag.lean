/-
Start tags: a name, attributes, and whether the tag closes itself.

`StartTag.parse` reads the text of a tag, angle brackets included, and never
fails: whatever stands there is read as a name and attributes. Names are made
small, values are decoded, and of several attributes with one name the first
is kept.
-/
import RichContent.Text.Reference

namespace RichContent

open Text

/-- An attribute; a bare one, written without `=`, has no value. -/
structure Attribute where
  name : Text
  value : Option Text
deriving DecidableEq, Repr

structure StartTag where
  name : Text
  attributes : List Attribute
  selfClosing : Bool
deriving DecidableEq, Repr

namespace Attribute

/-! ## Reading attributes -/

def isGap (c : Char) : Bool := isBlank c || c == '/'

def isNameChar (c : Char) : Bool := !isBlank c && c != '/' && c != '=' && c != '>'

/-- Reads the value after an `=`, blanks already skipped: the value and what follows.
A quoted value runs to the same quote, or to the end if there is none. -/
def scanValue : Text → Text × Text
  | [] => ([], [])
  | c :: rest =>
    if c = '"' ∨ c = '\'' then
      (decode (rest.takeWhile (· != c)), (rest.dropWhile (· != c)).drop 1)
    else
      (decode ((c :: rest).takeWhile (!isBlank ·)), (c :: rest).dropWhile (!isBlank ·))

theorem length_scanValue_le (t : Text) : (scanValue t).2.length ≤ t.length := by
  rw [scanValue.eq_def]
  split
  · simp
  · rename_i c rest
    split
    · have := (List.dropWhile_suffix (· != c) (l := rest)).length_le
      simp only [List.length_drop, List.length_cons]
      omega
    · exact (List.dropWhile_suffix _).length_le

def scanAfterName (t : Text) : Option Text × Text :=
  match t.dropWhile isBlank with
  | '=' :: rest =>
    let (value, after) := scanValue (rest.dropWhile isBlank)
    (some value, after)
  | after => (none, after)

theorem length_scanAfterName_le (t : Text) : (scanAfterName t).2.length ≤ t.length := by
  have ht := (List.dropWhile_suffix isBlank (l := t)).length_le
  rw [scanAfterName]
  split
  · rename_i rest heq
    have hv := length_scanValue_le (rest.dropWhile isBlank)
    have hr := (List.dropWhile_suffix isBlank (l := rest)).length_le
    rw [heq, List.length_cons] at ht
    simp only
    omega
  · exact ht

/-- Every attribute written in a text, repeated names included. A stray `=` or `>` where a
name should begin is passed over. -/
def scan (t : Text) : List Attribute :=
  match _ht : t.dropWhile isGap with
  | [] => []
  | c :: rest =>
    if isNameChar c then
      let name := c :: rest.takeWhile isNameChar
      let value := scanAfterName (rest.dropWhile isNameChar)
      ⟨lower name, value.1⟩ :: scan value.2
    else scan rest
termination_by t.length
decreasing_by
  · have h1 := (List.dropWhile_suffix isGap (l := t)).length_le
    have h2 := (List.dropWhile_suffix isNameChar (l := rest)).length_le
    have h3 := length_scanAfterName_le (rest.dropWhile isNameChar)
    rw [_ht, List.length_cons] at h1
    omega
  · have h1 := (List.dropWhile_suffix isGap (l := t)).length_le
    rw [_ht, List.length_cons] at h1
    omega

/-- The attributes whose name is not in `seen` and has not occurred before. -/
def keepFirst (seen : List Text) : List Attribute → List Attribute
  | [] => []
  | a :: rest =>
    if a.name ∈ seen then keepFirst seen rest else a :: keepFirst (a.name :: seen) rest

end Attribute

namespace StartTag

/-- What is between the angle brackets, where both are there; otherwise the text itself. -/
def interior (t : Text) : Text :=
  match t with
  | '<' :: rest => if rest.getLast? = some '>' then rest.dropLast else t
  | _ => t

/-- Reads a start tag. It closes itself if a `/` is last before the closing bracket. -/
def parse (t : Text) : StartTag :=
  let isNameEnd := fun c => isBlank c || c == '/'
  let inner := interior t
  let rest := inner.dropWhile (!isNameEnd ·)
  { name := lower (inner.takeWhile (!isNameEnd ·))
    attributes := Attribute.keepFirst [] (Attribute.scan rest)
    -- even if the slash is the end of a value
    selfClosing := (trimEnd rest).getLast? == some '/' }

/-! ## Looking attributes up -/

def find? (tag : StartTag) (name : Text) : Option Attribute :=
  tag.attributes.find? (·.name == name)

/-- The value of an attribute; a bare attribute has none. -/
def value? (tag : StartTag) (name : Text) : Option Text := (tag.find? name).bind (·.value)

def hasAttribute (tag : StartTag) (name : Text) : Bool := (tag.find? name).isSome

def classes (tag : StartTag) : List Text := words ((tag.value? "class".toList).getD [])

end StartTag

end RichContent
