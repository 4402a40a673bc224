/-
JSON values, and the fields of objects.

Whole numbers and floating-point numbers are different values. The fields of
an object are a list of pairs that is kept in the order of its keys, with no
key twice: `Fields.insert` keeps it so, and every object is built with it.
-/
import RichContent.Number.Binary64
import RichContent.Text.Basic

namespace RichContent

inductive Json where
  | null
  | bool (b : Bool)
  | int (n : Int)
  | float (x : Binary64)
  | str (t : Text)
  | arr (items : List Json)
  | obj (fields : List (Text × Json))
deriving Repr

abbrev Fields := List (Text × Json)

/-- Does a text come before another? The order is that of code points, which is the order of the
bytes in UTF-8. -/
def Text.before : Text → Text → Bool
  | _, [] => false
  | [], _ :: _ => true
  | a :: s, b :: t => a.toNat < b.toNat || (a == b && Text.before s t)

namespace Table

/-! ## Tables in the order of their keys -/

/-- Puts an entry at its place; an entry of the same key gives way to it. -/
def insert {α : Type} (key : Text) (value : α) : List (Text × α) → List (Text × α)
  | [] => [(key, value)]
  | (k, v) :: rest =>
    if key = k then (key, value) :: rest
    else if Text.before key k then (key, value) :: (k, v) :: rest
    else (k, v) :: insert key value rest

/-- The table of some entries; of several with one key the last stays. -/
def ofList {α : Type} (entries : List (Text × α)) : List (Text × α) :=
  entries.foldl (fun table (k, v) => insert k v table) []

theorem lookup_insert_self {α : Type} (key : Text) (value : α) (table : List (Text × α)) :
    (insert key value table).lookup key = some value := by
  induction table with
  | nil => simp [insert]
  | cons p table ih =>
    obtain ⟨k, v⟩ := p
    rw [insert]
    split
    · simp
    · split
      · simp
      · rename_i hne _
        have : (key == k) = false := by simpa using hne
        simpa [List.lookup_cons, this] using ih

theorem lookup_insert_other {α : Type} {key key' : Text} (h : key' ≠ key) (value : α)
    (table : List (Text × α)) : (insert key value table).lookup key' = table.lookup key' := by
  have hk : (key' == key) = false := by simpa using h
  induction table with
  | nil => simp [insert, List.lookup_cons, hk]
  | cons p table ih =>
    obtain ⟨k, v⟩ := p
    rw [insert]
    split
    · rename_i heq
      subst heq
      simp [List.lookup_cons, hk]
    · split
      · simp [List.lookup_cons, hk]
      · simp only [List.lookup_cons, ih]

end Table

namespace Json

def get? (key : Text) : Json → Option Json
  | obj fields => fields.lookup key
  | _ => none

def fields? : Json → Option Fields
  | obj fields => some fields
  | _ => none

def text? : Json → Option Text
  | str t => some t
  | _ => none

def texts (ts : List Text) : Json := arr (ts.map str)

def ofTexts (fields : List (String × Text)) : Json :=
  obj (Table.ofList (fields.map fun (k, t) => (k.toList, str t)))

def ofFields (fields : List (String × Json)) : Json :=
  obj (Table.ofList (fields.map fun (k, v) => (k.toList, v)))

end Json

end RichContent
