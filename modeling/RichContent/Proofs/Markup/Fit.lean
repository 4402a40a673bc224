/-
Markup that can be put in the place of a node (`Fits`): it begins with a `<`,
ends with a `>`, and has no `->` in it, so that no comment ends in it nor where
it meets what is around it. An element that was written with quoted attributes
and plain text is such markup.
-/
import RichContent.Proofs.Markup.Piece

namespace RichContent

open Text

/-- No `->` is in the text. -/
def Text.Arrowless (t : Text) : Prop := t.IsChain fun c d => ¬ (c = '-' ∧ d = '>')

/-- Markup that can be put in the place of a node. -/
structure Fits (h : Text) : Prop where
  less : h.head? = some '<'
  greater : h.getLast? = some '>'
  arrowless : Arrowless h

/-! ## Comments -/

namespace Text

theorem after?_eq_none {piece t : Text} : after? piece t = none ↔ ¬ piece <+: t := by
  rw [Option.eq_none_iff_forall_ne_some]
  constructor
  · rintro h ⟨rest, rfl⟩
    exact h rest (after?_eq_some.2 rfl)
  · rintro h rest heq
    exact h ⟨rest, (after?_eq_some.1 heq).symm⟩

theorem cutAt_cons {piece t : Text} {c : Char} :
    cutAt piece (c :: t) = none ↔ ¬ piece <+: c :: t ∧ cutAt piece t = none := by
  rw [cutAt, ← after?_eq_none]
  cases after? piece (c :: t) <;> simp

end Text

/-- No comment ends in what is put in, nor where it meets what is around it. -/
theorem Fits.cutAt_append {h : Text} (hfits : Fits h) {t : Text}
    (ht : cutAt "-->".toList t = none) : cutAt "-->".toList (h ++ t) = none := by
  obtain ⟨-, hlast, harrow⟩ := hfits
  induction h with
  | nil => exact ht
  | cons c h ih =>
    obtain ⟨hc, hchain⟩ := List.isChain_cons.1 harrow
    rw [List.cons_append, cutAt_cons]
    cases h with
    | nil =>
      cases hlast
      refine ⟨?_, ht⟩
      rintro ⟨rest, heq⟩
      exact absurd (List.cons.inj heq).1 (by decide)
    | cons d h =>
      refine ⟨?_, ih (by simpa using hlast) hchain⟩
      rintro ⟨rest, heq⟩
      cases h with
      | nil =>
        cases hlast
        have hd := (List.cons.inj (List.cons.inj heq).2).1
        exact absurd hd (by decide)
      | cons g h =>
        obtain ⟨-, heq⟩ := List.cons.inj heq
        obtain ⟨hd, heq⟩ := List.cons.inj heq
        obtain ⟨hg, -⟩ := List.cons.inj heq
        exact (List.isChain_cons.1 hchain).1 g rfl ⟨hd.symm, hg.symm⟩

/-! ## Written elements -/

theorem Text.arrowless_of_ne {t : Text} (h : ∀ c ∈ t, c ≠ '>') : Arrowless t := by
  unfold Arrowless
  induction t with
  | nil => exact List.isChain_nil
  | cons c t ih =>
    obtain ⟨-, ht⟩ := List.forall_mem_cons.1 h
    refine List.isChain_cons.2 ⟨?_, ih ht⟩
    rintro d hd ⟨-, rfl⟩
    obtain ⟨t', rfl⟩ := List.head?_eq_some_iff.1 hd
    exact ht _ List.mem_cons_self rfl

theorem Text.arrowless_append {s t : Text} (hs : Arrowless s) (ht : Arrowless t)
    (h : s.getLast? ≠ some '-') : Arrowless (s ++ t) := by
  refine List.isChain_append.2 ⟨hs, ht, ?_⟩
  rintro c hc d - ⟨rfl, -⟩
  exact h hc

theorem Text.arrowless_concat {s : Text} (hs : ∀ c ∈ s, c ≠ '>') (hlast : s.getLast? ≠ some '-') :
    Arrowless (s ++ ['>']) :=
  arrowless_append (arrowless_of_ne hs) (List.isChain_singleton _) hlast

theorem Attribute.ne_of_mem_written {q : Char} (hq : isQuote q = true) {a : Attribute}
    (h : WritableName a.name) {c : Char} (hc : c ∈ a.written q) : c ≠ '>' := by
  have hquote : q ≠ '>' := by rintro rfl; exact absurd hq (by decide)
  rw [written, List.cons_append, List.mem_cons, List.mem_append] at hc
  rcases hc with rfl | hc | hc
  · decide
  · obtain ⟨-, -, -, hgreater⟩ := isNameChar_iff.1 (h.plain c hc).1
    exact hgreater
  · cases hv : a.value with
    | none => simp [hv] at hc
    | some v =>
      simp only [hv, Option.elim_some, List.cons_append, List.mem_cons, List.mem_append,
        List.not_mem_nil, or_false] at hc
      rcases hc with rfl | rfl | hc | rfl
      · decide
      · exact hquote
      · exact (ne_of_mem_escape hc).2.1
      · exact hquote

theorem Attribute.getLast?_writtenAll_quoted {l : List (Text × Text)} (h : l ≠ []) :
    (writtenAll (quoted l)).getLast? = some '"' := by
  rcases List.eq_nil_or_concat l with hnil | ⟨init, ⟨name, value⟩, rfl⟩
  · exact absurd hnil h
  · have hwritten : writtenAll (quoted (init.concat (name, value))) =
        (writtenAll (quoted init) ++ ' ' :: name ++ '=' :: '"' :: escape value) ++ ['"'] := by
      simp [quoted, writtenAll, written]
    rw [hwritten, List.getLast?_concat]

namespace StartTag

variable {letter : Char} {name : Text} {l : List (Text × Text)}

/-- What is between the angle brackets of a written tag has no `>` in it, and its last character
is a quote or a `/`. -/
theorem interior_written (h : Writable letter name (Attribute.quoted l)) (hne : l ≠ [])
    (closes : Bool) :
    ∃ w, written (letter :: name) (Attribute.quoted l) closes = '<' :: w ++ ['>'] ∧
      (∀ c ∈ w, c ≠ '>') ∧ ('<' :: w).getLast? ≠ some '-' := by
  refine ⟨_, rfl, ?_, ?_⟩
  · intro c hc
    simp only [List.cons_append, List.mem_cons, List.mem_append] at hc
    rcases hc with rfl | hc | hc | hc
    · rintro rfl
      exact absurd h.letter (by decide)
    · obtain ⟨-, -, -, hgreater⟩ := Attribute.isNameChar_iff.1 (h.name c hc).1
      exact hgreater
    · obtain ⟨x, hx, hc⟩ := List.mem_flatMap.1 hc
      obtain ⟨hq, ha⟩ := h.attributes x hx
      exact Attribute.ne_of_mem_written hq ha hc
    · have hslash : (" /".toList.all fun c => c ≠ '>') = true := by decide
      cases closes with
      | false => exact absurd hc List.not_mem_nil
      | true => exact List.all_iff_forall_prop.1 hslash c hc
  · have hlast := Attribute.getLast?_writtenAll_quoted hne
    cases closes <;> simp [List.getLast?_cons, List.getLast?_append, hlast]

theorem arrowless_written (h : Writable letter name (Attribute.quoted l)) (hne : l ≠ [])
    (closes : Bool) : Arrowless (written (letter :: name) (Attribute.quoted l) closes) := by
  obtain ⟨w, hw, hgreater, hlast⟩ := interior_written h hne closes
  rw [hw]
  exact arrowless_concat (List.forall_mem_cons.2 ⟨by decide, hgreater⟩) hlast

theorem fits_leafElement (h : Writable letter name (Attribute.quoted l)) (hne : l ≠ []) :
    Fits (written (letter :: name) (Attribute.quoted l) true) :=
  ⟨rfl, List.getLast?_concat, arrowless_written h hne true⟩

theorem fits_textElement (h : Writable letter name (Attribute.quoted l)) (hne : l ≠ [])
    (hname : Piece.HasContent (letter :: name)) (hdash : (letter :: name).getLast? ≠ some '-')
    {s : Text} (hs : ∀ c ∈ s, c ≠ '>') :
    Fits (written (letter :: name) (Attribute.quoted l) false ++
      (s ++ Lexeme.endTagText (letter :: name))) := by
  refine ⟨rfl, ?_, ?_⟩
  · rw [← List.append_assoc, Lexeme.endTagText, ← List.append_assoc, List.getLast?_concat]
  · have hend : s ++ Lexeme.endTagText (letter :: name) =
        (s ++ '<' :: '/' :: letter :: name) ++ ['>'] := by simp [Lexeme.endTagText]
    have hwritten : (written (letter :: name) (Attribute.quoted l) false).getLast? = some '>' :=
      List.getLast?_concat
    refine arrowless_append (arrowless_written h hne false) ?_ (by rw [hwritten]; decide)
    rw [hend]
    apply arrowless_concat
    · intro c hc
      rcases List.mem_append.1 hc with hc | hc
      · exact hs c hc
      · rcases List.mem_cons.1 hc with rfl | hc
        · decide
        rcases List.mem_cons.1 hc with rfl | hc
        · decide
        · exact (hname.plain c hc).2.2
    · simpa [List.getLast?_append, List.getLast?_cons] using hdash

end StartTag

end RichContent
