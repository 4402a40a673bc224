/-
The attributes of tags that have been read: their names are in small letters
and no name occurs twice. So an attribute is known by its name in any case of
letters, and looking the name up finds it (`StartTag.find?_eq_some`).
-/
import Mathlib.Data.List.Nodup
import RichContent.Proofs.Markup.AttributeScan
import RichContent.Proofs.Markup.Grown

namespace RichContent

open Text

theorem Text.lower_lower (t : Text) : lower (lower t) = lower t := by
  simp only [lower, List.map_map]
  exact List.map_congr_left fun c _ => toLower_toLower c

namespace Attribute

variable {a : Attribute} {seen : List Text} {l : List Attribute}

theorem mem_of_mem_keepFirst (h : a ∈ keepFirst seen l) : a ∈ l ∧ a.name ∉ seen := by
  induction l generalizing seen with
  | nil => exact absurd h List.not_mem_nil
  | cons b l ih =>
    rw [keepFirst] at h
    split at h
    · exact ⟨List.mem_cons_of_mem _ (ih h).1, (ih h).2⟩
    · rename_i hb
      rcases List.mem_cons.1 h with rfl | h
      · exact ⟨List.mem_cons_self, hb⟩
      · obtain ⟨hmem, hseen⟩ := ih h
        exact ⟨List.mem_cons_of_mem _ hmem, fun hin => hseen (List.mem_cons_of_mem _ hin)⟩

theorem nodup_keepFirst (seen : List Text) (l : List Attribute) :
    ((keepFirst seen l).map (·.name)).Nodup := by
  induction l generalizing seen with
  | nil => exact List.nodup_nil
  | cons a l ih =>
    rw [keepFirst]
    split
    · exact ih seen
    · rw [List.map_cons, List.nodup_cons]
      refine ⟨fun hmem => ?_, ih _⟩
      obtain ⟨b, hb, hname⟩ := List.mem_map.1 hmem
      exact (mem_of_mem_keepFirst hb).2 (hname ▸ List.mem_cons_self)

/-- Of several attributes with one name the first is kept. -/
theorem find?_keepFirst (seen : List Text) (l : List Attribute) {name : Text} (h : name ∉ seen) :
    (keepFirst seen l).find? (·.name == name) = l.find? (·.name == name) := by
  induction l generalizing seen with
  | nil => rfl
  | cons a l ih =>
    rw [keepFirst]
    cases hname : a.name == name with
    | true => rw [if_neg (beq_iff_eq.1 hname ▸ h), List.find?_cons, List.find?_cons, hname]
    | false =>
      rw [List.find?_cons, hname]
      split
      · exact ih seen h
      · rw [List.find?_cons, hname]
        refine ih _ fun hmem => ?_
        rcases List.mem_cons.1 hmem with heq | hmem
        · exact absurd heq.symm (beq_eq_false_iff_ne.1 hname)
        · exact h hmem

/-- The name of an attribute is not empty, and it is in small letters. -/
theorem name_of_mem_scan {t : Text} (h : a ∈ scan t) : ∃ c w, a.name = lower (c :: w) := by
  induction hn : t.length using Nat.strongRecOn generalizing t with
  | ind n ih =>
    have hgap := (List.dropWhile_suffix isGap (l := t)).length_le
    cases hdrop : t.dropWhile isGap with
    | nil =>
      rw [scan_of_nil hdrop] at h
      exact absurd h List.not_mem_nil
    | cons c rest =>
      rw [hdrop, List.length_cons] at hgap
      rw [scan_of_cons hdrop] at h
      split at h
      · rcases List.mem_cons.1 h with rfl | h
        · exact ⟨c, rest.takeWhile isNameChar, rfl⟩
        · have hname := (List.dropWhile_suffix isNameChar (l := rest)).length_le
          have hvalue := length_scanAfterName_le (rest.dropWhile isNameChar)
          exact ih _ (by omega) h rfl
      · exact ih _ (by omega) h rfl

theorem lower_of_mem_scan {t : Text} (h : a ∈ scan t) : lower a.name = a.name := by
  obtain ⟨c, w, hname⟩ := name_of_mem_scan h
  rw [hname, lower_lower]

end Attribute

namespace StartTag

theorem nodup_attributes (t : Text) : ((parse t).attributes.map (·.name)).Nodup :=
  Attribute.nodup_keepFirst [] _

theorem lower_attribute {t : Text} {a : Attribute} (h : a ∈ (parse t).attributes) :
    lower a.name = a.name :=
  Attribute.lower_of_mem_scan (Attribute.mem_of_mem_keepFirst h).1

/-- Is there an attribute of the name, in any case of letters? -/
def carries (tag : StartTag) (name : Text) : Bool :=
  tag.attributes.any fun a => lower a.name == lower name

/-- What is found under a name is the one attribute that has it, in any case of letters. -/
theorem find?_eq_some {t name : Text} {a : Attribute} :
    (parse t).find? (lower name) = some a ↔
      a ∈ (parse t).attributes ∧ lower a.name = lower name := by
  rw [find?]
  constructor
  · intro h
    have hmem := List.mem_of_find?_eq_some h
    have hname := List.find?_some h
    rw [beq_iff_eq] at hname
    exact ⟨hmem, by rw [hname, lower_lower]⟩
  · rintro ⟨hmem, hname⟩
    rw [lower_attribute hmem] at hname
    cases hfind : (parse t).attributes.find? (·.name == lower name) with
    | none =>
      have hno := List.find?_eq_none.1 hfind a hmem
      exact absurd (beq_iff_eq.2 hname) hno
    | some b =>
      have hb := List.find?_some hfind
      rw [beq_iff_eq] at hb
      -- no name occurs twice
      have hab := List.inj_on_of_nodup_map (nodup_attributes t) hmem
        (List.mem_of_find?_eq_some hfind) (hname.trans hb.symm)
      rw [hab]

theorem hasAttribute_eq_carries (t name : Text) :
    (parse t).hasAttribute (lower name) = (parse t).carries name := by
  rw [Bool.eq_iff_iff, hasAttribute, Option.isSome_iff_exists, carries, List.any_eq_true]
  simp only [find?_eq_some, beq_iff_eq]

/-- The attributes of the tag are the first ones of each name of those that are written in its text,
and the names are neither empty nor in capital letters. -/
structure KeepsFirst (tag : StartTag) (t : Text) : Prop where
  name : ∀ a ∈ tag.attributes, a.name ≠ [] ∧ lower a.name = a.name
  distinct : (tag.attributes.map (·.name)).Nodup
  first : ∀ name, tag.find? name = (scanned (interior t)).find? (·.name == name)

theorem keepsFirst_parse (t : Text) : (parse t).KeepsFirst t where
  name a ha := by
    obtain ⟨c, w, hname⟩ := Attribute.name_of_mem_scan (Attribute.mem_of_mem_keepFirst ha).1
    exact ⟨by rw [hname]; exact List.cons_ne_nil _ _, lower_attribute ha⟩
  distinct := nodup_attributes t
  first name := Attribute.find?_keepFirst [] _ List.not_mem_nil

end StartTag

end RichContent
