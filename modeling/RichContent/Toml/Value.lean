/-
The values of TOML. A number with a point or an exponent may also be infinite
or no number; JSON has no such numbers and gets null.
-/
import RichContent.Record
import RichContent.Toml.Moment

namespace RichContent.Toml

inductive Value where
  | text (t : Text)
  | int (n : Int)
  /-- Without a number it is infinite or no number. -/
  | float (x : Option Binary64)
  | bool (b : Bool)
  | moment (m : Moment)
  | array (items : List Value)
  | table (entries : List (Text × Value))

namespace Value

/-- The key under which a date or time is found, where a table is asked for. -/
def momentKey : Text := "$__toml_private_datetime".toList

mutual

def json : Value → Json
  | text t => .str t
  | int n => .int n
  | float (some x) => .float x
  | float none => .null
  | bool b => .bool b
  | moment m => .obj [(momentKey, .str m.print)]
  | array items => .arr (jsonItems items)
  | table entries => .obj (jsonEntries entries)

def jsonItems : List Value → List Json
  | [] => []
  | v :: rest => json v :: jsonItems rest

def jsonEntries : List (Text × Value) → Fields
  | [] => []
  | (key, v) :: rest => Table.insert key (json v) (jsonEntries rest)

end

instance : Datum Value where
  isNull _ := false
  text?
    | text t => some t
    | _ => none
  bool?
    | bool b => some b
    | _ => none
  count?
    | int n => if 0 ≤ n then some n.toNat else none
    | _ => none
  items?
    | array items => some items
    | _ => none
  entries?
    | table entries => some entries
    | moment m => some [(momentKey, text m.print)]
    | _ => none
  json := json
  allowsMore := true

end Value

end RichContent.Toml
