/-
Files attached to content. A file has an id and a name; whatever else is known
of it travels along as it is.
-/
import RichContent.Record

namespace RichContent

structure AttachedFile where
  id : Text
  filename : Text
  mime : Option Text := none
  /-- In bytes. -/
  size : Option Nat := none
  /-- Everything else, in the order of the keys. -/
  extra : Fields := []

namespace AttachedFile

def ownFields : List Text :=
  ["id".toList, "filename".toList, "mime".toList, "size".toList]

def read? {σ : Type} [Datum σ] (v : σ) : Option AttachedFile := do
  let fields ← Datum.entries? v
  let extra := fields.filter fun (key, _) => !ownFields.contains key
  pure
    { id := ← Record.required? fields "id" Datum.text?
      filename := ← Record.required? fields "filename" Datum.text?
      mime := ← Record.optional? fields "mime" Datum.text?
      size := ← Record.optional? fields "size" Datum.count?
      extra := Table.ofList (extra.map fun (key, v) => (key, Datum.json v)) }

def field {α : Type} (name : String) (write : α → Json) : Option α → Fields
  | some a => [(name.toList, write a)]
  | none => []

def json (f : AttachedFile) : Json :=
  .obj (Table.ofList
    (("id".toList, .str f.id) :: ("filename".toList, .str f.filename)
      :: field "mime" .str f.mime ++ field "size" (fun n => .int (Int.ofNat n)) f.size
      ++ f.extra))

end AttachedFile

end RichContent
