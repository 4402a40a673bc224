/-
Escaped text in markup: it has no character that markup is made of, and it is
decoded back to what it was, whatever stands behind it (`decode_escape_append`).
-/
import Mathlib.Data.Bool.AllAny
import Mathlib.Data.List.TakeWhile
import RichContent.Text.Reference

namespace RichContent.Text

/-! ## Reading references -/

/-- Characters that can stand in a reference are one if there is a `;` behind them. -/
theorem reference?_append {name : Text} (h : ∀ c ∈ name, isReferenceChar c = true) (t : Text) :
    reference? (name ++ ';' :: t) = (referent? name).map (·, t) := by
  have hstop : isReferenceChar ';' = false := by decide
  rw [reference?, List.dropWhile_append_of_pos h, List.takeWhile_append_of_pos h]
  simp [hstop]

theorem decode_reference {t after : Text} {c : Char} (h : reference? t = some (c, after)) :
    decode ('&' :: t) = c :: decode after := by
  rw [decode, if_pos rfl]
  split
  · rename_i hr
    rw [h] at hr
    cases hr
    rfl
  · rename_i hr
    rw [h] at hr
    cases hr

theorem decode_of_no_reference {t : Text} (h : reference? t = none) :
    decode ('&' :: t) = '&' :: decode t := by
  rw [decode, if_pos rfl]
  split
  · rename_i hr
    rw [h] at hr
    cases hr
  · rfl

theorem decode_cons_of_ne {c : Char} (h : c ≠ '&') (t : Text) :
    decode (c :: t) = c :: decode t := by
  rw [decode, if_neg h]

/-- A text without `&` has no references. -/
theorem decode_append_of_ne {s : Text} (h : ∀ c ∈ s, c ≠ '&') (t : Text) :
    decode (s ++ t) = s ++ decode t := by
  induction s with
  | nil => rfl
  | cons c s ih =>
    obtain ⟨hc, hs⟩ := List.forall_mem_cons.1 h
    rw [List.cons_append, decode_cons_of_ne hc, ih hs, List.cons_append]

theorem decode_eq_self {t : Text} (h : ∀ c ∈ t, c ≠ '&') : decode t = t := by
  have happend := decode_append_of_ne h []
  rw [List.append_nil, decode, List.append_nil] at happend
  exact happend

section

variable {c : Char} (hc : isReferenceChar c = false) (hend : c ≠ ';')
include hc hend

/-- No reference goes on over a character that cannot stand in one and does not end one. -/
theorem reference?_append_of_stop (s t : Text) :
    reference? (s ++ c :: t) = (reference? s).map fun (d, rest) => (d, rest ++ c :: t) := by
  have hsplit := List.takeWhile_append_dropWhile (p := isReferenceChar) (l := s)
  have hplain : ∀ d ∈ s.takeWhile isReferenceChar, isReferenceChar d = true :=
    fun d => List.mem_takeWhile_imp
  unfold reference?
  cases hdrop : s.dropWhile isReferenceChar with
  | nil =>
    rw [hdrop, List.append_nil] at hsplit
    rw [← hsplit, List.dropWhile_append_of_pos hplain, List.dropWhile_cons_of_neg (by simp [hc])]
    simp [hend]
  | cons d rest =>
    have hd : isReferenceChar d = false := by
      have hhead := List.head?_dropWhile_not isReferenceChar s
      rw [hdrop] at hhead
      simpa using hhead
    rw [hdrop] at hsplit
    have happ : s ++ c :: t = s.takeWhile isReferenceChar ++ d :: (rest ++ c :: t) := by
      rw [← List.cons_append, ← List.append_assoc, hsplit]
    rw [happ, List.dropWhile_append_of_pos hplain, List.takeWhile_append_of_pos hplain,
      List.dropWhile_cons_of_neg (by simp [hd]), List.takeWhile_cons_of_neg (by simp [hd]),
      List.append_nil]
    by_cases hsemi : d = ';'
    · subst hsemi
      simp [Function.comp_def]
    · simp [hsemi]

/-- Such a character cuts what is decoded in two. -/
theorem decode_append_of_stop (s t : Text) :
    decode (s ++ c :: t) = decode s ++ decode (c :: t) := by
  induction hn : s.length using Nat.strongRecOn generalizing s with
  | ind n ih =>
    cases s with
    | nil => simp [decode]
    | cons d s =>
      rw [List.length_cons] at hn
      rw [List.cons_append]
      by_cases hd : d = '&'
      · subst hd
        have happend := reference?_append_of_stop hc hend s t
        cases href : reference? s with
        | none =>
          rw [href] at happend
          rw [decode_of_no_reference href, decode_of_no_reference happend, ih _ (by omega) s rfl,
            List.cons_append]
        | some x =>
          obtain ⟨e, rest⟩ := x
          have hlt := length_lt_of_reference? href
          rw [href] at happend
          rw [decode_reference href, decode_reference happend, ih _ (by omega) rest rfl,
            List.cons_append]
      · rw [decode_cons_of_ne hd, decode_cons_of_ne hd, ih _ (by omega) s rfl, List.cons_append]

end

/-! ## Escaped text -/

@[simp] theorem escape_nil : escape [] = [] := rfl

@[simp] theorem escape_cons (c : Char) (t : Text) :
    escape (c :: t) = escapeChar c ++ escape t := rfl

/-- Of the characters that mean something in markup an escaped one has only the `&`. -/
theorem ne_of_mem_escapeChar {c d : Char} (h : d ∈ escapeChar c) :
    d ≠ '<' ∧ d ≠ '>' ∧ d ≠ '"' ∧ d ≠ '\'' := by
  have hamp : ∀ d ∈ "&amp;".toList, d ≠ '<' ∧ d ≠ '>' ∧ d ≠ '"' ∧ d ≠ '\'' :=
    List.all_iff_forall_prop.1 (by decide)
  have hlt : ∀ d ∈ "&lt;".toList, d ≠ '<' ∧ d ≠ '>' ∧ d ≠ '"' ∧ d ≠ '\'' :=
    List.all_iff_forall_prop.1 (by decide)
  have hgt : ∀ d ∈ "&gt;".toList, d ≠ '<' ∧ d ≠ '>' ∧ d ≠ '"' ∧ d ≠ '\'' :=
    List.all_iff_forall_prop.1 (by decide)
  have hquot : ∀ d ∈ "&quot;".toList, d ≠ '<' ∧ d ≠ '>' ∧ d ≠ '"' ∧ d ≠ '\'' :=
    List.all_iff_forall_prop.1 (by decide)
  have hapos : ∀ d ∈ "&#39;".toList, d ≠ '<' ∧ d ≠ '>' ∧ d ≠ '"' ∧ d ≠ '\'' :=
    List.all_iff_forall_prop.1 (by decide)
  unfold escapeChar at h
  split at h
  · exact hamp d h
  split at h
  · exact hlt d h
  split at h
  · exact hgt d h
  split at h
  · exact hquot d h
  split at h
  · exact hapos d h
  · obtain rfl := List.mem_singleton.1 h
    exact ⟨‹_›, ‹_›, ‹_›, ‹_›⟩

theorem ne_of_mem_escape {d : Char} {t : Text} (h : d ∈ escape t) :
    d ≠ '<' ∧ d ≠ '>' ∧ d ≠ '"' ∧ d ≠ '\'' := by
  obtain ⟨c, -, hd⟩ := List.mem_flatMap.1 h
  exact ne_of_mem_escapeChar hd

/-- An escaped character is decoded back, whatever stands behind it. -/
theorem decode_escapeChar_append (c : Char) (t : Text) :
    decode (escapeChar c ++ t) = c :: decode t := by
  have hread (name : Text) (d : Char) (h : name.all isReferenceChar = true)
      (hd : referent? name = some d) : decode (('&' :: name) ++ ';' :: t) = d :: decode t := by
    rw [List.cons_append, decode_reference]
    rw [reference?_append (List.all_eq_true.1 h), hd]
    rfl
  unfold escapeChar
  split
  · rename_i hc
    rw [hc]
    exact hread "amp".toList '&' (by decide) (by decide)
  split
  · rename_i hc
    rw [hc]
    exact hread "lt".toList '<' (by decide) (by decide)
  split
  · rename_i hc
    rw [hc]
    exact hread "gt".toList '>' (by decide) (by decide)
  split
  · rename_i hc
    rw [hc]
    exact hread "quot".toList '"' (by decide) (by decide)
  split
  · rename_i hc
    rw [hc]
    exact hread "#39".toList '\'' (by decide) (by decide)
  · exact decode_cons_of_ne ‹_› t

/-- Escaped text is decoded back, and what stands behind it is decoded by itself. -/
theorem decode_escape_append (s t : Text) : decode (escape s ++ t) = s ++ decode t := by
  induction s with
  | nil => rfl
  | cons c s ih =>
    rw [escape_cons, List.append_assoc, decode_escapeChar_append, ih, List.cons_append]

theorem decode_escape (s : Text) : decode (escape s) = s := by
  have h := decode_escape_append s []
  rw [List.append_nil, decode, List.append_nil] at h
  exact h

/-- A text that has none of the five characters stays as it is. -/
theorem escape_eq_self {t : Text}
    (h : ∀ c ∈ t, c ≠ '&' ∧ c ≠ '<' ∧ c ≠ '>' ∧ c ≠ '"' ∧ c ≠ '\'') : escape t = t := by
  induction t with
  | nil => rfl
  | cons c t ih =>
    obtain ⟨⟨h1, h2, h3, h4, h5⟩, ht⟩ := List.forall_mem_cons.1 h
    rw [escape_cons, ih ht, escapeChar, if_neg h1, if_neg h2, if_neg h3, if_neg h4, if_neg h5]
    rfl

end RichContent.Text
