/-
Escaped text as the content of a document.

Escaping is five replacements, one after the other; as the `&` is replaced
first, none of them touches what another has put in, so they can be made in one
go (`escape_eq_replaced`). Escaped text has no `<`, so as a document it is one
run of text; and what is read of it is decoded once, which gives back the text
that has been escaped, whatever references stood in it (`escape_reads_back`).
-/
import RichContent.Markup.Document
import RichContent.Proofs.Markup.Piece

namespace RichContent

open Text

namespace Text

/-- The text with another text in the place of every occurrence of a character. -/
def replaced (c : Char) (w t : Text) : Text := t.flatMap fun d => if d = c then w else [d]

theorem replaced_append (c : Char) (w s t : Text) :
    replaced c w (s ++ t) = replaced c w s ++ replaced c w t := by
  simp [replaced]

theorem replaced_of_ne {c d : Char} (h : d ≠ c) (w : Text) : replaced c w [d] = [d] := by
  simp [replaced, h]

/-- The five replacements do not get in each other's way, if the one of `&` is the first. -/
theorem escape_eq_replaced (t : Text) :
    escape t =
      replaced '\'' "&#39;".toList (replaced '"' "&quot;".toList (replaced '>' "&gt;".toList
        (replaced '<' "&lt;".toList (replaced '&' "&amp;".toList t)))) := by
  have hchar : ∀ c : Char, replaced '\'' "&#39;".toList (replaced '"' "&quot;".toList
      (replaced '>' "&gt;".toList (replaced '<' "&lt;".toList
        (replaced '&' "&amp;".toList [c])))) = escapeChar c := by
    intro c
    by_cases hamp : c = '&'
    · subst hamp
      decide
    by_cases hless : c = '<'
    · subst hless
      decide
    by_cases hgreater : c = '>'
    · subst hgreater
      decide
    by_cases hdouble : c = '"'
    · subst hdouble
      decide
    by_cases hsingle : c = '\''
    · subst hsingle
      decide
    rw [replaced_of_ne hamp, replaced_of_ne hless, replaced_of_ne hgreater,
      replaced_of_ne hdouble, replaced_of_ne hsingle]
    simp [escapeChar, hamp, hless, hgreater, hdouble, hsingle]
  induction t with
  | nil => rfl
  | cons c t ih =>
    have happ : c :: t = [c] ++ t := rfl
    rw [escape_cons, ih, ← hchar, happ]
    simp only [replaced_append]

end Text

/-! ## Documents without markup -/

/-- A text without `<` is one run of text. -/
theorem Forest.parse_of_ne {t : Text} (hne : t ≠ []) (h : ∀ c ∈ t, c ≠ '<') :
    Forest.parse t = .text ⟨0, t⟩ .nil := by
  have hpieces := Piece.all_text 0 hne h (.inl rfl)
  rw [List.append_nil, Piece.all_nil] at hpieces
  rw [Forest.parse, hpieces, Forest.grow]
  show Forest.text _ (Forest.grow [] []).forest = _
  rw [Forest.grow_nil]

/-- What is read of a text without `<` is decoded, and only once. -/
theorem Document.text_of_ne {t : Text} (h : ∀ c ∈ t, c ≠ '<') : (Document.parse t).text = decode t := by
  rw [Document.text, Document.write_eq]
  show (Forest.parse t).write .plain _ 0 = _
  by_cases hnil : t = []
  · subst hnil
    rw [Forest.parse, Piece.all_nil, Forest.grow_nil, decode]
    rfl
  · rw [Forest.parse_of_ne hnil h]
    simp [Forest.write, Document.replacement?, Document.parse, View.plain]

/-- **Escaped text is read back, whatever it is and whatever stands behind it.** It has none of
the characters that end a text or a quoted value, and a document that consists of it has the text
that has been escaped. No text is decoded twice: what is read of a text without markup is decoded
once. -/
theorem escape_reads_back :
    (∀ s t : Text, decode (escape s ++ t) = s ++ decode t) ∧
    (∀ s : Text, ∀ c ∈ escape s, c ≠ '<' ∧ c ≠ '>' ∧ c ≠ '"' ∧ c ≠ '\'') ∧
    (∀ s : Text, decode (escape s) = s) ∧
    (∀ t : Text, (∀ c ∈ t, c ≠ '<') → (Document.parse t).text = decode t) ∧
    ∀ s : Text, (Document.parse (escape s)).text = s := by
  refine ⟨decode_escape_append, ?_, decode_escape, ?_, ?_⟩
  · intro s c hc
    exact ne_of_mem_escape hc
  · intro t h
    exact Document.text_of_ne h
  · intro s
    rw [Document.text_of_ne fun c hc => (ne_of_mem_escape hc).1, decode_escape]

/-- A reference that is escaped, every character that is escaped, and a reference that only what
stands behind completes. -/
theorem escape_reads_back_hostile :
    let s := "&lt;<a b=\"'\">&amp".toList
    let t := ";&#38;lt;".toList
    ';' ∈ escape s ∧ (';' ≠ '<' ∧ ';' ≠ '>' ∧ ';' ≠ '"' ∧ ';' ≠ '\'') ∧
      decode (escape s ++ t) = s ++ decode t ∧ decode t = ";&lt;".toList ∧
      (∀ c ∈ t, c ≠ '<') ∧ (Document.parse t).text = decode t ∧
      (Document.parse (escape s)).text = s := by
  intro s t
  obtain ⟨hbehind, hplain, -, hread, htext⟩ := escape_reads_back
  have hmem : ';' ∈ escape s := by decide
  have hless : ∀ c ∈ t, c ≠ '<' := List.all_iff_forall_prop.1 (by decide)
  exact ⟨hmem, hplain s ';' hmem, hbehind s t, by decide +kernel, hless, hread t hless, htext s⟩

end RichContent
