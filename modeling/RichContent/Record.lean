/-
Reading records from values of a data format.

A record is written as a table of its fields, or as a sequence of their values
in the order of the fields. Unknown fields are passed over; a field that is
left out has its default, where there is one. A value of the wrong kind makes
the whole record unreadable.
-/
import RichContent.Json.Basic

namespace RichContent

/-- The values of a data format, as far as records are read from them. -/
class Datum (σ : Type) where
  isNull : σ → Bool
  text? : σ → Option Text
  bool? : σ → Option Bool
  /-- A whole number that is not negative and fits in 64 bits. -/
  count? : σ → Option Nat
  items? : σ → Option (List σ)
  entries? : σ → Option (List (Text × σ))
  json : σ → Json
  /-- May a sequence that stands for a record have more values than the record has fields? -/
  allowsMore : Bool

def maxCount : Nat := 18446744073709551615

namespace Json

def count? : Json → Option Nat
  | int n => if 0 ≤ n ∧ n.toNat ≤ maxCount then some n.toNat else none
  | _ => none

def bool? : Json → Option Bool
  | bool b => some b
  | _ => none

def items? : Json → Option (List Json)
  | arr items => some items
  | _ => none

def isNull : Json → Bool
  | null => true
  | _ => false

instance : Datum Json where
  isNull := isNull
  text? := text?
  bool? := bool?
  count? := count?
  items? := items?
  entries? := fields?
  json := id
  allowsMore := false

end Json

namespace Record

open Datum

variable {σ α : Type} [Datum σ]

def fields? (names : List Text) (v : σ) : Option (List (Text × σ)) :=
  match entries? v with
  | some entries => some entries
  | none =>
    match items? v with
    | some items =>
      if allowsMore σ || items.length ≤ names.length then some (names.zip items) else none
    | none => none

def required? (fields : List (Text × σ)) (name : String) (read : σ → Option α) : Option α :=
  (fields.lookup name.toList).bind read

def defaulted? (fields : List (Text × σ)) (name : String) (read : σ → Option α) (default : α) :
    Option α :=
  match fields.lookup name.toList with
  | some v => read v
  | none => some default

def nullable? (read : σ → Option α) (v : σ) : Option (Option α) :=
  if isNull v then some none else (read v).map some

def optional? (fields : List (Text × σ)) (name : String) (read : σ → Option α) :
    Option (Option α) :=
  defaulted? fields name (nullable? read) none

/-- A sequence of values that can all be read. -/
def list? (read : σ → Option α) (v : σ) : Option (List α) := (items? v).bind (·.mapM read)

/-- A table of values that can all be read, in the order of its keys. -/
def table? (read : σ → Option α) (v : σ) : Option (List (Text × α)) := do
  let entries ← entries? v
  let entries ← entries.mapM fun (k, v) => (read v).map fun a => (k, a)
  pure (Table.ofList entries)

def pair? (v : σ) : Option (Text × Text) := do
  match ← items? v with
  | [a, b] => pure (← text? a, ← text? b)
  | a :: b :: _ => if allowsMore σ then pure (← text? a, ← text? b) else none
  | _ => none

def json? (v : σ) : Option Fields := table? (fun v => some (json v)) v

end Record

end RichContent
