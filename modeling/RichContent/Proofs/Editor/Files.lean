/-
Attached files as JSON objects.

What is read of an object is said field by field (`AttachedFile.Reads`), and
what is found under each key of an object that is written is known as well. So
an object that is read and written again is the same, only that a kind or size
that is null is left out (`json_of_read`), and it is read as the same file.
-/
import RichContent.Editor.File
import RichContent.Proofs.Json.Table

namespace RichContent

namespace AttachedFile

/-! ## Reading -/

/-- What is found where a value can be left out: the value as it is written, or nothing, or null. -/
def Holds {α : Type} (write : α → Json) (found : Option Json) : Option α → Prop
  | some a => found = some (write a)
  | none => found = none ∨ found = some .null

theorem isNull_iff {v : Json} : v.isNull = true ↔ v = .null := by
  cases v <;> simp [Json.isNull]

theorem Holds.map_eq {α : Type} {write : α → Json} {found : Option Json} {x : Option α}
    (h : Holds write found x) (hwrite : ∀ a, write a ≠ .null) :
    x.map write = found.filter fun v => !v.isNull := by
  cases x with
  | none =>
    obtain rfl | rfl := h
    · rfl
    · rfl
  | some a =>
    obtain rfl : found = some (write a) := h
    have hnull : (write a).isNull = false :=
      Bool.eq_false_iff.2 fun hnull => hwrite a (isNull_iff.1 hnull)
    rw [Option.map_some, Option.filter_some, if_pos (by rw [hnull, Bool.not_false])]

/-- A size as it is written. -/
def sizeJson (n : Nat) : Json := .int (Int.ofNat n)

/-- The fields that have no meaning of their own. -/
def others (fields : Fields) : Fields := fields.filter fun (key, _) => !ownFields.contains key

/-- The file that is read from the fields of an object. -/
structure Reads (fields : Fields) (f : AttachedFile) : Prop where
  id : fields.lookup "id".toList = some (.str f.id)
  filename : fields.lookup "filename".toList = some (.str f.filename)
  mime : Holds .str (fields.lookup "mime".toList) f.mime
  size : Holds sizeJson (fields.lookup "size".toList) f.size
  small : ∀ n, f.size = some n → n ≤ maxCount
  extra : f.extra = Table.ofList (others fields)

theorem text?_eq_some {v : Json} {t : Text} : v.text? = some t ↔ v = .str t := by
  cases v <;> simp [Json.text?]

theorem count?_eq_some {v : Json} {n : Nat} :
    v.count? = some n ↔ v = sizeJson n ∧ n ≤ maxCount := by
  cases v with
  | int k =>
    simp only [Json.count?, sizeJson, Json.int.injEq]
    split
    · rename_i hk
      rw [Option.some.injEq]
      constructor
      · rintro rfl
        exact ⟨(Int.toNat_of_nonneg hk.1).symm, hk.2⟩
      · rintro ⟨rfl, -⟩
        rfl
    · rename_i hk
      constructor
      · rintro ⟨⟩
      · rintro ⟨rfl, hn⟩
        exact absurd ⟨Int.natCast_nonneg n, hn⟩ hk
  | _ => simp [Json.count?, sizeJson]

variable {fields : Fields}

theorem optional?_eq_some {α : Type} {read : Json → Option α} {write : α → Json} {small : α → Prop}
    (fields : Fields) (hread : ∀ v a, read v = some a ↔ v = write a ∧ small a)
    (hwrite : ∀ a, write a ≠ .null) (name : String) (x : Option α) :
    Record.optional? fields name read = some x ↔
      Holds write (fields.lookup name.toList) x ∧ ∀ a, x = some a → small a := by
  have hnullable (v : Json) : Record.nullable? read v =
      if v.isNull = true then some none else (read v).map some := rfl
  rw [Record.optional?, Record.defaulted?]
  cases fields.lookup name.toList with
  | none => cases x <;> simp [Holds]
  | some v =>
    simp only [hnullable]
    split
    · rename_i hnull
      obtain rfl := isNull_iff.1 hnull
      cases x with
      | none => simp [Holds]
      | some a => simp [Holds, (hwrite a).symm]
    · rename_i hnull
      rw [isNull_iff] at hnull
      cases x with
      | none => simp [Holds, hnull]
      | some a => simp [Holds, hread]

theorem read?_iff {f : AttachedFile} : read? (Json.obj fields) = some f ↔ Reads fields f := by
  have hread : ∀ (v : Json) (t : Text), Datum.text? v = some t ↔ v = .str t ∧ True := by
    intro v t
    rw [and_true]
    exact text?_eq_some
  have hmime := optional?_eq_some fields hread (by simp) "mime"
  have hsize := optional?_eq_some fields (@count?_eq_some) (by simp [sizeJson]) "size"
  have hothers : ((fields.filter fun (key, _) => !ownFields.contains key).map
      fun (key, v) => (key, Datum.json v)) = others fields := List.map_id _
  have hrequired (name : String) (t : Text) :
      Record.required? fields name Datum.text? = some t ↔ fields.lookup name.toList = some (.str t) := by
    rw [Record.required?, Option.bind_eq_some_iff]
    simp [hread]
  have hunfold : read? (Json.obj fields) = (do
      let id ← Record.required? fields "id" Datum.text?
      let filename ← Record.required? fields "filename" Datum.text?
      let mime ← Record.optional? fields "mime" Datum.text?
      let size ← Record.optional? fields "size" Json.count?
      pure ⟨id, filename, mime, size, Table.ofList (others fields)⟩) := by
    rw [← hothers]
    rfl
  obtain ⟨id, filename, mime, size, extra⟩ := f
  rw [hunfold]
  simp only [Option.bind_eq_bind, Option.bind_eq_some_iff, hrequired, hmime, hsize, Option.pure_def,
    Option.some.injEq, mk.injEq]
  constructor
  · rintro ⟨_, hid, _, hfilename, _, ⟨hmime, -⟩, _, ⟨hsize, hsmall⟩, rfl, rfl, rfl, rfl, rfl⟩
    exact ⟨hid, hfilename, hmime, hsize, hsmall, rfl⟩
  · rintro ⟨hid, hfilename, hmime, hsize, hsmall, rfl⟩
    exact ⟨_, hid, _, hfilename, _, ⟨hmime, by simp⟩, _, ⟨hsize, hsmall⟩, rfl, rfl, rfl, rfl, rfl⟩

/-! ## Writing -/

/-- The fields with a meaning of their own, as they are written. -/
def own (f : AttachedFile) : Fields :=
  ("id".toList, .str f.id) :: ("filename".toList, .str f.filename)
    :: field "mime" .str f.mime ++ field "size" sizeJson f.size

theorem json_eq (f : AttachedFile) : f.json = .obj (Table.ofList (f.own ++ f.extra)) := rfl

theorem keys_field {α : Type} (name : String) (write : α → Json) (x : Option α) :
    ((field name write x).map (·.1)).Sublist [name.toList] := by
  cases x with
  | none => exact List.nil_sublist _
  | some a => exact List.Sublist.refl _

theorem keys_own (f : AttachedFile) : (f.own.map (·.1)).Sublist ownFields := by
  rw [own, List.cons_append, List.cons_append, List.map_cons, List.map_cons, List.map_append]
  exact (((keys_field _ _ _).append (keys_field _ _ _)).cons_cons _).cons_cons _

/-- The fields that can be left out. -/
def voidFields : List Text := ["mime".toList, "size".toList]

/-- Is this a kind or a size that is null? -/
def isVoid (x : Text × Json) : Bool := voidFields.contains x.1 && x.2.isNull

theorem isVoid_of_not_own {x : Text × Json} (h : x.1 ∉ ownFields) : isVoid x = false := by
  have hvoid : voidFields.contains x.1 = false := by
    rw [Bool.eq_false_iff, ne_eq, List.contains_iff_mem]
    exact fun hmem => h (List.mem_cons_of_mem _ (List.mem_cons_of_mem _ hmem))
  rw [isVoid, hvoid, Bool.false_and]

variable {f : AttachedFile}

theorem lookup_others (fields : Fields) (key : Text) :
    (others fields).lookup key = if key ∈ ownFields then none else fields.lookup key := by
  rw [others, Table.lookup_filter fun key => !ownFields.contains key]
  by_cases h : key ∈ ownFields <;> simp [h]

section

variable (hfields : Table.Ordered fields) (h : Reads fields f)
include hfields h

theorem extra_eq : f.extra = others fields :=
  h.extra.trans (Table.ofList_eq_self (hfields.filter _))

theorem distinct_written : Table.Distinct (f.own ++ f.extra) := by
  rw [Table.Distinct, List.map_append, List.nodup_append']
  refine ⟨List.Nodup.sublist f.keys_own (by decide), ?_, ?_⟩
  · rw [extra_eq hfields h]
    exact (hfields.filter _).distinct
  · intro key hown hextra
    rw [Table.mem_keys, extra_eq hfields h, lookup_others] at hextra
    exact hextra (if_pos (f.keys_own.subset hown))

/-- Under its key is found what has been read, unless that was null. -/
theorem lookup_written (key : Text) :
    (f.own ++ f.extra).lookup key =
      (fields.lookup key).filter fun v => !isVoid (key, v) := by
  rw [List.lookup_append, extra_eq hfields h, lookup_others]
  by_cases hkey : key ∈ ownFields
  · rw [if_pos hkey, Option.or_none]
    have hmime := h.mime
    have hsize := h.size
    simp only [ownFields, List.mem_cons, List.not_mem_nil, or_false] at hkey
    rcases hkey with rfl | rfl | rfl | rfl
    · rw [h.id]
      rfl
    · rw [h.filename]
      rfl
    · have hown : f.own.lookup "mime".toList = f.mime.map .str := by
        rw [own]
        cases f.mime <;> cases f.size <;> rfl
      rw [hown, h.mime.map_eq (by simp)]
      rfl
    · have hown : f.own.lookup "size".toList = f.size.map sizeJson := by
        rw [own]
        cases f.mime <;> cases f.size <;> rfl
      rw [hown, h.size.map_eq (by simp [sizeJson])]
      rfl
  · have hown : f.own.lookup key = none := by
      by_contra hne
      exact hkey (f.keys_own.subset (Table.mem_keys.2 hne))
    have hkeep : (fun v => !isVoid (key, v)) = fun _ => true :=
      funext fun v => by rw [isVoid_of_not_own hkey, Bool.not_false]
    rw [if_neg hkey, hown, Option.none_or, hkeep]
    cases fields.lookup key with
    | none => rfl
    | some v => rfl

theorem json_of_reads : f.json = .obj (fields.filter fun x => !isVoid x) := by
  rw [json_eq]
  congr 1
  refine (Table.ordered_ofList _).ext (hfields.filter _) fun key => ?_
  rw [Table.lookup_ofList, Table.lookup_reverse (distinct_written hfields h),
    lookup_written hfields h, Table.lookup_filter_of_distinct hfields.distinct]

theorem reads_written : Reads (fields.filter fun x => !isVoid x) f := by
  have hlookup := Table.lookup_filter_of_distinct hfields.distinct fun x => !isVoid x
  have hholds {α : Type} {write : α → Json} (hwrite : ∀ a, write a ≠ .null) {name : Text}
      {x : Option α} (hvoid : ∀ v, isVoid (name, v) = v.isNull) (hx : Holds write (fields.lookup name) x) :
      Holds write ((fields.filter fun x => !isVoid x).lookup name) x := by
    rw [hlookup]
    simp only [hvoid]
    rw [← hx.map_eq hwrite]
    cases x with
    | none => exact .inl rfl
    | some a => rfl
  have hothers : others (fields.filter fun x => !isVoid x) = others fields := by
    rw [others, List.filter_filter, others]
    refine List.filter_congr fun x _ => ?_
    change (!ownFields.contains x.1 && !isVoid x) = !ownFields.contains x.1
    cases hown : ownFields.contains x.1 with
    | true => rfl
    | false =>
      rw [isVoid_of_not_own (mt List.contains_iff_mem.2 (Bool.eq_false_iff.1 hown))]
      rfl
  refine ⟨?_, ?_, hholds (by simp) (fun _ => rfl) h.mime,
    hholds (by simp [sizeJson]) (fun _ => rfl) h.size, h.small, by rw [hothers, h.extra]⟩
  · rw [hlookup, h.id]
    rfl
  · rw [hlookup, h.filename]
    rfl

end

/-- **What is read and written again is the same object, without a kind or a size that is null,**
and it is read as the same file. -/
theorem json_of_read (hfields : Table.Ordered fields) (hread : read? (Json.obj fields) = some f) :
    f.json = .obj (fields.filter fun x => !isVoid x) ∧ read? f.json = some f := by
  have h := read?_iff.1 hread
  have hjson := json_of_reads hfields h
  refine ⟨hjson, ?_⟩
  rw [hjson]
  exact read?_iff.2 (reads_written hfields h)

/-- The file has been read from an object. -/
def IsRead (f : AttachedFile) : Prop :=
  ∃ fields, Table.Ordered fields ∧ read? (Json.obj fields) = some f

theorem IsRead.read?_json (h : f.IsRead) : read? f.json = some f := by
  obtain ⟨fields, hfields, hread⟩ := h
  exact (json_of_read hfields hread).2

end AttachedFile

end RichContent
