/-
How a TOML document grows, header by header and entry by entry.

Nothing can be written twice. A table that was only passed through on the way
to another one can still get a header of its own; one that dotted keys made
cannot, but dotted keys can add to it; one with a header of its own takes no
dotted keys from outside. A header in double brackets adds a table to a list,
and a path through a list means its last table.
-/
import RichContent.Toml.Value

namespace RichContent.Toml

inductive Origin where
  | header
  /-- On the way to another table. -/
  | passed
  | dotted
deriving DecidableEq, Repr

inductive Item where
  | value (v : Value)
  | table (origin : Origin) (entries : List (Text × Item))
  /-- The tables of a list but the last, and the last. -/
  | tables (earlier : List (List (Text × Item))) (last : List (Text × Item))

abbrev Entries := List (Text × Item)

namespace Entries

/-- Puts an item in the place of that of a key, or at the end. -/
def set (key : Text) (item : Item) : Entries → Entries
  | [] => [(key, item)]
  | (k, i) :: rest => if k = key then (key, item) :: rest else (k, i) :: set key item rest

/-- Changes the table at a path, making the tables on the way that are missing. `dotted` says
whether the path is that of a dotted key or of a header; `origin` is that of the table. -/
def modify? (dotted : Bool) (change : Origin → Entries → Option Entries) :
    (path : List Text) → (origin : Origin) → Entries → Option Entries
  | [], origin, entries => change origin entries
  | key :: path, _, entries =>
    match entries.lookup key with
    | none =>
      let origin := if dotted then Origin.dotted else Origin.passed
      (modify? dotted change path origin []).map fun sub => set key (.table origin sub) entries
    | some (.table origin sub) =>
      if dotted && origin == .header then none
      else (modify? dotted change path origin sub).map fun sub => set key (.table origin sub) entries
    | some (.tables earlier last) =>
      (modify? dotted change path .header last).map fun last =>
        set key (.tables earlier last) entries
    | some (.value _) => none

/-- Adds an entry under a key, which is dotted if `path` is not empty. -/
def insert? (path : List Text) (key : Text) (v : Value) : Entries → Option Entries :=
  modify? true
    (fun origin entries =>
      if (origin == .dotted) == path.isEmpty then none
      else if (entries.lookup key).isSome then none
      else some (entries ++ [(key, .value v)]))
    path .header

def begin? (path : List Text) (key : Text) : Entries → Option Entries :=
  modify? false
    (fun _ entries =>
      match entries.lookup key with
      | none => some (set key (.table .header []) entries)
      | some (.table .passed sub) => some (set key (.table .header sub) entries)
      | some _ => none)
    path .header

def beginNext? (path : List Text) (key : Text) : Entries → Option Entries :=
  modify? false
    (fun _ entries =>
      match entries.lookup key with
      | none => some (set key (.tables [] []) entries)
      | some (.tables earlier last) => some (set key (.tables (earlier ++ [last]) []) entries)
      | some _ => none)
    path .header

end Entries

mutual

def Item.toValue : Item → Value
  | .value v => v
  | .table _ entries => .table (entriesValue entries)
  | .tables earlier last => .array (tablesValue earlier ++ [.table (entriesValue last)])

def entriesValue : List (Text × Item) → List (Text × Value)
  | [] => []
  | (key, item) :: rest => (key, item.toValue) :: entriesValue rest

def tablesValue : List (List (Text × Item)) → List Value
  | [] => []
  | entries :: rest => .table (entriesValue entries) :: tablesValue rest

end

end RichContent.Toml
