/-
Tables are in the order of their keys, with no key twice (`Table.Ordered`), and
what is put in last under a key is what is found there.
-/
import Mathlib.Data.List.Nodup
import RichContent.Json.Basic

namespace RichContent

/-! ## The order of keys -/

namespace Text

theorem before_irrefl (t : Text) : before t t = false := by
  induction t with
  | nil => rfl
  | cons c t ih => simp [before, ih]

theorem before_trans {s t u : Text} (h : before s t = true) (h' : before t u = true) :
    before s u = true := by
  induction s generalizing t u with
  | nil =>
    cases u with
    | nil => simp [before] at h'
    | cons c u => rfl
  | cons a s ih =>
    cases t with
    | nil => simp [before] at h
    | cons b t =>
      cases u with
      | nil => simp [before] at h'
      | cons c u =>
        simp only [before, Bool.or_eq_true, decide_eq_true_eq, Bool.and_eq_true,
          beq_iff_eq] at h h' ⊢
        rcases h with h | ⟨rfl, h⟩
        · rcases h' with h' | ⟨rfl, -⟩
          · exact .inl (Nat.lt_trans h h')
          · exact .inl h
        · rcases h' with h' | ⟨rfl, h'⟩
          · exact .inl h'
          · exact .inr ⟨rfl, ih h h'⟩

theorem before_or {s t : Text} (hne : s ≠ t) : before s t = true ∨ before t s = true := by
  induction s generalizing t with
  | nil =>
    cases t with
    | nil => exact absurd rfl hne
    | cons b t => exact .inl rfl
  | cons a s ih =>
    cases t with
    | nil => exact .inr rfl
    | cons b t =>
      simp only [before, Bool.or_eq_true, decide_eq_true_eq, Bool.and_eq_true, beq_iff_eq]
      by_cases hab : a = b
      · subst hab
        rcases ih (fun h => hne (h ▸ rfl)) with h | h
        · exact .inl (.inr ⟨rfl, h⟩)
        · exact .inr (.inr ⟨rfl, h⟩)
      · rcases Nat.lt_or_gt_of_ne (fun h => hab (Char.toNat_inj.1 h)) with h | h
        · exact .inl (.inl h)
        · exact .inr (.inl h)

end Text

namespace Table

open Text

variable {α : Type} {key key' : Text} {value : α} {table entries : List (Text × α)}

/-- The keys are in order. -/
def Ordered (table : List (Text × α)) : Prop :=
  table.Pairwise fun x y => before x.1 y.1 = true

/-- No key comes twice. -/
def Distinct (table : List (Text × α)) : Prop := (table.map (·.1)).Nodup

theorem Ordered.distinct (h : Ordered table) : Distinct table := by
  refine List.pairwise_map.2 (h.imp fun hbefore heq => ?_)
  rw [heq, before_irrefl] at hbefore
  cases hbefore

theorem mem_insert {x : Text × α} (h : x ∈ insert key value table) :
    x = (key, value) ∨ x ∈ table := by
  induction table with
  | nil => exact .inl (List.mem_singleton.1 h)
  | cons y table ih =>
    rw [insert] at h
    split at h
    · rcases List.mem_cons.1 h with h | h
      · exact .inl h
      · exact .inr (List.mem_cons_of_mem _ h)
    · split at h
      · exact List.mem_cons.1 h
      · rcases List.mem_cons.1 h with rfl | h
        · exact .inr List.mem_cons_self
        · exact (ih h).imp id (List.mem_cons_of_mem _)

theorem Ordered.insert (h : Ordered table) (key : Text) (value : α) :
    Ordered (Table.insert key value table) := by
  induction table with
  | nil => exact List.pairwise_singleton _ _
  | cons y table ih =>
    obtain ⟨hy, htable⟩ := List.pairwise_cons.1 h
    rw [Table.insert]
    split
    · rename_i heq
      exact List.pairwise_cons.2 ⟨fun z hz => heq ▸ hy z hz, htable⟩
    · rename_i hne
      split
      · rename_i hbefore
        refine List.pairwise_cons.2 ⟨fun z hz => ?_, h⟩
        rcases List.mem_cons.1 hz with rfl | hz
        · exact hbefore
        · exact before_trans hbefore (hy z hz)
      · rename_i hbefore
        refine List.pairwise_cons.2 ⟨fun z hz => ?_, ih htable⟩
        rcases mem_insert hz with rfl | hz
        · exact (before_or hne).resolve_left hbefore
        · exact hy z hz

/-! ## What is found -/

theorem lookup_cons (x : Text × α) (table : List (Text × α)) (key : Text) :
    (x :: table).lookup key = if key = x.1 then some x.2 else table.lookup key := by
  obtain ⟨k, v⟩ := x
  rw [List.lookup_cons]
  cases h : key == k with
  | true => rw [if_pos (beq_iff_eq.1 h)]
  | false => rw [if_neg (beq_eq_false_iff_ne.1 h)]

theorem lookup_insert (key key' : Text) (value : α) (table : List (Text × α)) :
    (insert key value table).lookup key' =
      if key' = key then some value else table.lookup key' := by
  split
  · rename_i heq
    rw [heq, lookup_insert_self]
  · rename_i hne
    exact lookup_insert_other hne value table

/-- What is put in last under a key is found, else what was there. -/
theorem lookup_foldl (entries table : List (Text × α)) (key : Text) :
    (entries.foldl (fun table entry => insert entry.1 entry.2 table) table).lookup key =
      (entries.reverse.lookup key).or (table.lookup key) := by
  induction entries generalizing table with
  | nil => rfl
  | cons entry entries ih =>
    rw [List.foldl_cons, ih, lookup_insert, List.reverse_cons, List.lookup_append, Option.or_assoc,
      lookup_cons]
    split <;> rfl

theorem ordered_foldl (h : Ordered table) (entries : List (Text × α)) :
    Ordered (entries.foldl (fun table entry => insert entry.1 entry.2 table) table) := by
  induction entries generalizing table with
  | nil => exact h
  | cons entry entries ih => exact ih (h.insert _ _)

theorem ordered_ofList (entries : List (Text × α)) : Ordered (ofList entries) :=
  ordered_foldl List.Pairwise.nil entries

theorem lookup_ofList (entries : List (Text × α)) (key : Text) :
    (ofList entries).lookup key = entries.reverse.lookup key :=
  (lookup_foldl entries [] key).trans Option.or_none

theorem mem_keys : key ∈ table.map (·.1) ↔ table.lookup key ≠ none := by
  induction table with
  | nil => simp
  | cons x table ih =>
    rw [lookup_cons, List.map_cons, List.mem_cons, ih]
    split
    · simp [*]
    · simp [*]

theorem lookup_of_mem (hd : Distinct table) (h : (key, value) ∈ table) :
    table.lookup key = some value := by
  induction table with
  | nil => exact absurd h List.not_mem_nil
  | cons x table ih =>
    obtain ⟨hx, htable⟩ := List.nodup_cons.1 hd
    rw [lookup_cons]
    rcases List.mem_cons.1 h with rfl | h
    · exact if_pos rfl
    · have hne : key ≠ x.1 := fun heq => hx (List.mem_map.2 ⟨_, h, heq⟩)
      rw [if_neg hne]
      exact ih htable h

/-- Where no key comes twice it does not matter from which end one looks. -/
theorem lookup_reverse (hd : Distinct table) (key : Text) :
    table.reverse.lookup key = table.lookup key := by
  cases h : table.reverse.lookup key with
  | none =>
    symm
    rw [List.lookup_eq_none_iff] at h ⊢
    exact fun x hx => h x (List.mem_reverse.2 hx)
  | some value =>
    obtain ⟨l, r, hsplit, -⟩ := List.lookup_eq_some_iff.1 h
    refine (lookup_of_mem hd (List.mem_reverse.1 ?_)).symm
    rw [hsplit]
    simp

theorem lookup_filter (keep : Text → Bool) (table : List (Text × α)) (key : Text) :
    (table.filter fun entry => keep entry.1).lookup key =
      if keep key then table.lookup key else none := by
  induction table with
  | nil => simp
  | cons x table ih =>
    rw [List.filter_cons, lookup_cons]
    by_cases hkey : key = x.1
    · subst hkey
      cases hkeep : keep x.1 with
      | true => simp [lookup_cons]
      | false => simp [ih, hkeep]
    · rw [if_neg hkey, ← ih]
      split
      · rw [lookup_cons, if_neg hkey]
      · rfl

/-! ## Tables that hold the same -/

theorem mem_iff_lookup (hd : Distinct table) :
    (key, value) ∈ table ↔ table.lookup key = some value := by
  constructor
  · exact lookup_of_mem hd
  · intro h
    obtain ⟨l, r, rfl, -⟩ := List.lookup_eq_some_iff.1 h
    simp

/-- Tables in order are the same if the same is found in them. -/
theorem Ordered.ext {table' : List (Text × α)} (h : Ordered table) (h' : Ordered table')
    (hlookup : ∀ key, table.lookup key = table'.lookup key) : table = table' := by
  have hperm : table.Perm table' := by
    refine (List.perm_ext_iff_of_nodup h.distinct.of_map h'.distinct.of_map).2 fun x => ?_
    rw [mem_iff_lookup h.distinct, mem_iff_lookup h'.distinct, hlookup]
  refine hperm.eq_of_pairwise (fun x y _ _ hxy hyx => ?_) h h'
  have hxx := before_trans hxy hyx
  rw [before_irrefl] at hxx
  cases hxx

theorem Ordered.filter (h : Ordered table) (keep : Text × α → Bool) :
    Ordered (table.filter keep) :=
  List.Pairwise.filter keep h

theorem ofList_eq_self (h : Ordered table) : ofList table = table := by
  refine (ordered_ofList table).ext h fun key => ?_
  rw [lookup_ofList, lookup_reverse h.distinct]

theorem lookup_filter_of_distinct (hd : Distinct table) (keep : Text × α → Bool) (key : Text) :
    (table.filter keep).lookup key = (table.lookup key).filter fun value => keep (key, value) := by
  have hfilter : Distinct (table.filter keep) := List.Nodup.sublist (List.filter_sublist.map _) hd
  refine Option.ext fun value => ?_
  rw [← mem_iff_lookup hfilter, List.mem_filter, mem_iff_lookup hd, Option.filter_eq_some_iff]

end Table

end RichContent
