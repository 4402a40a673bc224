/-
The lines of a text, and what marking the line breaks does to them.

A carriage return and a line feed are breaks, and one break where they come
together in this order (`LineBreak.Stands`). The breaks divide a text into lines
that are ended and a last one that is not (`lines`), and wherever a break stands
one of the lines is ended by it (`lines_break`). Marking puts one mark at the
end of every ended line and does nothing else (`lines_markBreaks`). So the marks
can be taken out again, whatever has stood before the breaks in the first place.
-/
import Mathlib.Data.List.Basic
import RichContent.Text.LineBreak

namespace RichContent.Text

/-! ## Line breaks -/

/-- A line break. -/
inductive LineBreak where
  /-- A carriage return with its line feed. -/
  | both
  | carriageReturn
  | lineFeed
deriving DecidableEq, Repr

namespace LineBreak

/-- The characters of the break. -/
def text : LineBreak → Text
  | both => ['\r', '\n']
  | carriageReturn => ['\r']
  | lineFeed => ['\n']

/-- Between these texts the break is a whole one, not one half of both. -/
def Stands (before : Text) : LineBreak → (after : Text) → Prop
  | both, _ => True
  | carriageReturn, after => after.head? ≠ some '\n'
  | lineFeed, _ => before.getLast? ≠ some '\r'

variable {b : LineBreak} {c : Char} {before after : Text}

theorem Stands.of_cons (h : b.Stands (c :: before) after) : b.Stands before after := by
  cases b with
  | both => exact trivial
  | carriageReturn => exact h
  | lineFeed =>
    cases before with
    | nil => simp [Stands]
    | cons d before => rwa [Stands, List.getLast?_cons_cons] at h

/-- A break that stands behind a carriage return does not begin with a line feed. -/
theorem Stands.head?_ne (h : b.Stands ['\r'] after) (rest : Text) :
    (b.text ++ rest).head? ≠ some '\n' := by
  cases b with
  | both | carriageReturn => simp [text]
  | lineFeed => exact absurd rfl h

end LineBreak

/-! ## Lines -/

/-- A line and the break that ends it. -/
structure Line where
  content : Text
  ending : LineBreak
deriving DecidableEq, Repr

/-- The lines of a text: those that are ended, and the last one. -/
structure Lines where
  ended : List Line
  last : Text
deriving DecidableEq, Repr

/-- The line with its break. -/
def Line.text (l : Line) : Text := l.content ++ l.ending.text

namespace Lines

/-- The text that the lines are. -/
def text (l : Lines) : Text := l.ended.flatMap Line.text ++ l.last

/-- A break in front: one more line, with nothing in it. -/
def broken (b : LineBreak) (l : Lines) : Lines := ⟨⟨[], b⟩ :: l.ended, l.last⟩

/-- One more character in the first line. -/
def cons (c : Char) (l : Lines) : Lines :=
  match l.ended with
  | [] => ⟨[], c :: l.last⟩
  | first :: rest => ⟨⟨c :: first.content, first.ending⟩ :: rest, l.last⟩

@[simp] theorem text_broken (b : LineBreak) (l : Lines) : (l.broken b).text = b.text ++ l.text := by
  simp [broken, text, Line.text]

@[simp] theorem text_cons (c : Char) (l : Lines) : (l.cons c).text = c :: l.text := by
  obtain ⟨ended, last⟩ := l
  cases ended <;> simp [cons, text, Line.text]

end Lines

/-- Divides a text at its breaks. -/
def lines : Text → Lines
  | [] => ⟨[], []⟩
  | '\r' :: '\n' :: rest => (lines rest).broken .both
  | c :: rest =>
    if c = '\r' then (lines rest).broken .carriageReturn
    else if c = '\n' then (lines rest).broken .lineFeed
    else (lines rest).cons c

/-- The breaks of a text, in order. -/
def breaks (t : Text) : List LineBreak := (lines t).ended.map (·.ending)

/-- Nothing is lost by the division. -/
theorem text_lines (t : Text) : (lines t).text = t := by
  fun_induction lines t with
  | case1 => rfl
  | case2 rest ih => rw [Lines.text_broken, ih]; rfl
  | case3 rest _ ih => rw [Lines.text_broken, ih]; rfl
  | case4 rest _ _ ih => rw [Lines.text_broken, ih]; rfl
  | case5 c rest _ _ _ ih => rw [Lines.text_cons, ih]

/-- The last line is the end of the text. -/
theorem last_suffix (t : Text) : (lines t).last <:+ t :=
  ⟨(lines t).ended.flatMap Line.text, text_lines t⟩

section

variable {b : LineBreak} {c : Char} {before after : Text}

theorem lines_carriageReturn (h : after.head? ≠ some '\n') :
    lines ('\r' :: after) = (lines after).broken .carriageReturn := by
  rw [lines.eq_def]
  split
  · rename_i heq
    cases heq
  · rename_i heq
    cases heq
    exact absurd rfl h
  · rename_i heq
    cases heq
    exact if_pos rfl

theorem lines_plain (hr : c ≠ '\r') (hn : c ≠ '\n') (t : Text) :
    lines (c :: t) = (lines t).cons c := by
  rw [lines.eq_def]
  split
  · rename_i heq
    cases heq
  · rename_i heq
    cases heq
    exact absurd rfl hr
  · rename_i heq
    cases heq
    rw [if_neg hr, if_neg hn]

/-- A break in front ends a line with nothing in it. -/
theorem lines_text (h : b.Stands [] after) : lines (b.text ++ after) = (lines after).broken b := by
  cases b with
  | both => rfl
  | carriageReturn => exact lines_carriageReturn h
  | lineFeed => rfl

/-- **Where a break stands a line is ended by it**, and what is before it and what is behind it are
divided each by itself. -/
theorem lines_break (h : b.Stands before after) :
    lines (before ++ b.text ++ after) =
      ⟨(lines before).ended ++ ⟨(lines before).last, b⟩ :: (lines after).ended,
        (lines after).last⟩ := by
  fun_induction lines before with
  | case1 => rw [List.nil_append, lines_text h]; rfl
  | case2 rest ih =>
    rw [List.cons_append, List.cons_append, List.cons_append, List.cons_append, lines,
      ih h.of_cons.of_cons]
    rfl
  | case3 rest hrest ih =>
    have hhead : (rest ++ b.text ++ after).head? ≠ some '\n' := by
      cases rest with
      | nil => exact h.head?_ne after
      | cons d rest =>
        rintro heq
        obtain rfl := Option.some.inj heq
        exact hrest rest rfl rfl
    rw [List.cons_append, List.cons_append, lines_carriageReturn hhead, ih h.of_cons]
    rfl
  | case4 rest _ _ ih =>
    rw [List.cons_append, List.cons_append, lines, if_neg (by decide), if_pos rfl, ih h.of_cons]
    · rfl
    · simp
  | case5 c rest _ hr hn ih =>
    rw [List.cons_append, List.cons_append, lines_plain hr hn, ih h.of_cons]
    generalize lines rest = l
    obtain ⟨ended, last⟩ := l
    cases ended <;> rfl

end

/-! ## Marks -/

/-- The line with a mark at its end. -/
def Line.marked (l : Line) : Line := ⟨l.content ++ breakMark, l.ending⟩

/-- The line without the mark at its end, if there is one. -/
def Line.unmarked (l : Line) : Line := ⟨(l.content.dropSuffix? breakMark).getD l.content, l.ending⟩

theorem Line.unmarked_marked (l : Line) : l.marked.unmarked = l := by
  have hdrop : (l.content ++ breakMark).dropSuffix? breakMark = some l.content :=
    List.dropSuffix?_eq_some_iff.2 ⟨breakMark, rfl, beq_self_eq_true _⟩
  rw [unmarked, marked, hdrop]
  rfl

/-- The text without the one mark right before each of its breaks. -/
def unmarkBreaks (t : Text) : Text :=
  Lines.text ⟨(lines t).ended.map Line.unmarked, (lines t).last⟩

theorem head?_markBreaks_ne (t : Text) : (markBreaks t).head? ≠ some '\n' := by
  fun_cases markBreaks t with
  | case1 => simp
  | case2 rest | case3 c rest _ _ => simp [breakMark]
  | case4 c rest _ hc => simpa using fun heq => hc (.inr heq)

/-- **Marking puts one mark at the end of every ended line**, and the breaks stay what they are. -/
theorem lines_markBreaks (t : Text) :
    lines (markBreaks t) = ⟨(lines t).ended.map Line.marked, (lines t).last⟩ := by
  have hmarked (b : LineBreak) (l : Text) (rest : Lines)
      (h : lines l = ⟨rest.ended.map Line.marked, rest.last⟩) (hb : b.Stands breakMark l) :
      lines (breakMark ++ b.text ++ l) =
        ⟨(rest.broken b).ended.map Line.marked, (rest.broken b).last⟩ := by
    rw [lines_break hb, h]
    rfl
  fun_induction markBreaks t with
  | case1 => rfl
  | case2 rest ih => exact hmarked .both _ _ ih trivial
  | case3 c rest hpair hc ih =>
    rcases hc with rfl | rfl
    · have hrest : rest.head? ≠ some '\n' := by
        intro hhead
        obtain ⟨rest, rfl⟩ := List.head?_eq_some_iff.1 hhead
        exact hpair rest rfl rfl
      rw [lines_carriageReturn hrest]
      exact hmarked .carriageReturn _ _ ih (head?_markBreaks_ne rest)
    · have hstands : breakMark.getLast? ≠ some '\r' := by decide
      exact hmarked .lineFeed _ _ ih hstands
  | case4 c rest _ hc ih =>
    obtain ⟨hr, hn⟩ := not_or.1 hc
    rw [lines_plain hr hn, lines_plain hr hn, ih]
    cases hlines : (lines rest).ended <;> simp [Lines.cons, hlines, Line.marked]

/-- **Every line break is marked, and nothing is lost by it.** In the marked text a mark stands
right before every break, the breaks are those that the text has had, and without the one mark
before each of them it is the text again, though there may have been marks in it already. So no two
texts are the same when they have been marked. -/
theorem markBreaks_reversible :
    (∀ t, (∀ before (b : LineBreak) after, markBreaks t = before ++ b.text ++ after →
        b.Stands before after → breakMark <:+ before) ∧
      breaks (markBreaks t) = breaks t ∧ unmarkBreaks (markBreaks t) = t) ∧
    Function.Injective markBreaks := by
  have hundone (t : Text) : unmarkBreaks (markBreaks t) = t := by
    rw [unmarkBreaks, lines_markBreaks, List.map_map]
    have hid : Line.unmarked ∘ Line.marked = id := funext Line.unmarked_marked
    rw [hid, List.map_id]
    exact text_lines t
  refine ⟨fun t => ⟨fun before b after h hb => ?_, ?_, hundone t⟩, ?_⟩
  · have hlines := lines_markBreaks t
    rw [h, lines_break hb] at hlines
    obtain ⟨hended, -⟩ := Lines.mk.inj hlines
    have hmem : ⟨(lines before).last, b⟩ ∈ (lines t).ended.map Line.marked := by
      rw [← hended]
      simp
    obtain ⟨l, -, hl⟩ := List.mem_map.1 hmem
    have hlast : l.content ++ breakMark = (lines before).last := congrArg Line.content hl
    exact (hlast ▸ List.suffix_append l.content breakMark).trans (last_suffix before)
  · rw [breaks, lines_markBreaks, List.map_map]
    rfl
  · exact Function.LeftInverse.injective hundone

/-- Marks before breaks and elsewhere, and breaks of all kinds next to each other. -/
theorem markBreaks_reversible_mixed :
    let t := "<br />\n\r\r\n<br /><br />\r".toList
    let before := "<br /><br />\n<br />\r<br />\r\n<br /><br /><br />".toList
    markBreaks t = before ++ LineBreak.carriageReturn.text ++ [] ∧
      LineBreak.carriageReturn.Stands before [] ∧ breakMark <:+ before ∧
      breaks (markBreaks t) = [.lineFeed, .carriageReturn, .both, .carriageReturn] ∧
      unmarkBreaks (markBreaks t) = t := by
  intro t before
  obtain ⟨hmarked, hbreaks, hundone⟩ := markBreaks_reversible.1 t
  have htext : markBreaks t = before ++ LineBreak.carriageReturn.text ++ [] := by decide
  have hstands : LineBreak.carriageReturn.Stands before [] := by
    rw [LineBreak.Stands]
    decide
  exact ⟨htext, hstands, hmarked before .carriageReturn [] htext hstands,
    hbreaks.trans (by decide), hundone⟩

end RichContent.Text
