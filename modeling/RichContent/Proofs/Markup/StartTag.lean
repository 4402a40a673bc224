/-
Start tags that were written.

A tag is read back as it was written if the two scans of it agree with the
writer: the scan for its end must not be misled by a value (`Passable`), and
the split into attributes must come upon one attribute after the other
(`scan_valued`, `scan_bare`). Both go over a text piece by piece, so what holds
of the attributes holds of the tag.
-/
import RichContent.Markup.Lexeme
import RichContent.Proofs.Text.Reference

namespace RichContent

open Text

/-- The characters that quote a value. -/
def isQuote (c : Char) : Bool := c == '"' || c == '\''

theorem eq_of_isQuote {c : Char} (h : isQuote c = true) : c = '"' ∨ c = '\'' := by
  simpa [isQuote] using h

theorem not_mem_escape_of_isQuote {q : Char} (h : isQuote q = true) (t : Text) : q ∉ escape t := by
  intro hq
  obtain ⟨-, -, hdouble, hsingle⟩ := ne_of_mem_escape hq
  rcases eq_of_isQuote h with rfl | rfl
  · exact hdouble rfl
  · exact hsingle rfl

/-- An attribute as it is written. -/
def Attribute.written (quote : Char) (a : Attribute) : Text :=
  ' ' :: a.name ++ a.value.elim [] fun v => '=' :: quote :: escape v ++ [quote]

theorem Attribute.isNameChar_iff {c : Char} :
    isNameChar c = true ↔ isBlank c = false ∧ c ≠ '/' ∧ c ≠ '=' ∧ c ≠ '>' := by
  simp [isNameChar, and_assoc]

namespace Lexeme

/-! ## The end of a tag -/

/-- The same end, with a text in front. -/
def TagEnd.behind (w : Text) (e : TagEnd) : TagEnd := w.foldr TagEnd.cons e

@[simp] theorem TagEnd.behind_nil (e : TagEnd) : e.behind [] = e := rfl

@[simp] theorem TagEnd.behind_cons (c : Char) (w : Text) (e : TagEnd) :
    e.behind (c :: w) = (e.behind w).cons c := rfl

theorem TagEnd.behind_append (v w : Text) (e : TagEnd) :
    e.behind (v ++ w) = (e.behind w).behind v := List.foldr_append

theorem TagEnd.behind_closed (w rest after : Text) :
    (closed rest after).behind w = closed (w ++ rest) after := by
  induction w with
  | nil => rfl
  | cons c w ih => rw [behind_cons, ih, cons, List.cons_append]

theorem scanTag_value {q : Char} {v : Text} (h : q ∉ v) (b : Bool) (t : Text) :
    scanTag (some q) b (v ++ q :: t) = (scanTag none false t).behind (v ++ [q]) := by
  induction v with
  | nil => simp [scanTag]
  | cons c v ih =>
    have hc : c ≠ q := fun hcq => h (hcq ▸ List.mem_cons_self)
    have hv : q ∉ v := fun hq => h (List.mem_cons_of_mem _ hq)
    simp [scanTag, hc, ih hv]

/-- Without quotes and angle brackets only the last `=` counts. -/
theorem scanTag_upToEquals {w : Text}
    (h : ∀ c ∈ w, c ≠ '"' ∧ c ≠ '\'' ∧ c ≠ '<' ∧ c ≠ '>') (b : Bool) (t : Text) :
    scanTag none b (w ++ '=' :: t) = (scanTag none true t).behind (w ++ ['=']) := by
  induction w generalizing b with
  | nil => simp [scanTag, isBlank]
  | cons c w ih =>
    obtain ⟨⟨h1, h2, h3, h4⟩, hw⟩ := List.forall_mem_cons.1 h
    simp [scanTag, h1, h2, h3, h4, ih hw]

/-- A scan that comes upon the text outside of a value, and not after an `=`, goes on behind it
in the same way. -/
def Passable (w : Text) : Prop :=
  ∀ t, scanTag none false (w ++ t) = (scanTag none false t).behind w

theorem passable_nil : Passable [] := fun _ => rfl

theorem passable_append {v w : Text} (hv : Passable v) (hw : Passable w) : Passable (v ++ w) := by
  intro t
  rw [List.append_assoc, hv, hw, TagEnd.behind_append]

theorem passable_flatMap {α : Type} {l : List α} {f : α → Text} (h : ∀ a ∈ l, Passable (f a)) :
    Passable (l.flatMap f) := by
  induction l with
  | nil => exact passable_nil
  | cons a l ih =>
    obtain ⟨ha, hl⟩ := List.forall_mem_cons.1 h
    exact passable_append ha (ih hl)

/-- Quotes mean nothing where no `=` is. -/
theorem passable_of_ne {w : Text} (h : ∀ c ∈ w, c ≠ '=' ∧ c ≠ '<' ∧ c ≠ '>') : Passable w := by
  intro t
  induction w with
  | nil => rfl
  | cons c w ih =>
    obtain ⟨⟨h1, h2, h3⟩, hw⟩ := List.forall_mem_cons.1 h
    simp [scanTag, h2, h3, h1, ih hw]

theorem scanTag_quote {q : Char} (hq : isQuote q = true) (t : Text) :
    scanTag none true (q :: t) = (scanTag (some q) false t).cons q := by
  rw [scanTag]
  exact if_pos ⟨eq_of_isQuote hq, rfl⟩

/-- A quoted value behind any name that has no quotes and no angle brackets. -/
theorem passable_valued {w : Text} (h : ∀ c ∈ w, c ≠ '"' ∧ c ≠ '\'' ∧ c ≠ '<' ∧ c ≠ '>')
    {q : Char} (hq : isQuote q = true) (v : Text) :
    Passable (w ++ '=' :: q :: escape v ++ [q]) := by
  intro t
  have happ : w ++ '=' :: q :: escape v ++ [q] ++ t = w ++ '=' :: q :: (escape v ++ q :: t) := by
    simp
  rw [happ, scanTag_upToEquals h, scanTag_quote hq, scanTag_value (not_mem_escape_of_isQuote hq v),
    ← TagEnd.behind_cons, ← TagEnd.behind_append]
  simp

theorem passable_written {a : Attribute} (h : ∀ c ∈ a.name, c ≠ '=' ∧ c ≠ '<' ∧ c ≠ '>') {q : Char}
    (hq : isQuote q = true) : Passable (a.written q) := by
  have hname : Passable (' ' :: a.name) := by
    apply passable_of_ne
    exact List.forall_mem_cons.2 ⟨by decide, h⟩
  unfold Attribute.written
  cases a.value with
  | none => simpa using hname
  | some v =>
    have hvalue := passable_valued (w := []) (by simp) hq v
    exact passable_append hname hvalue

theorem cutTag_of_passable {w : Text} (h : Passable w) (r : Text) :
    cutTag (w ++ '>' :: r) = some (w ++ ['>'], r) := by
  have hend : scanTag none false ('>' :: r) = .closed ['>'] r := by simp [scanTag]
  rw [cutTag, h, hend, TagEnd.behind_closed]

theorem isBlank_of_isLetter {c : Char} (h : isLetter c = true) : isBlank c = false := by
  cases hblank : isBlank c with
  | false => rfl
  | true =>
    simp only [isBlank, Bool.or_eq_true, beq_iff_eq] at hblank
    rcases hblank with (((rfl | rfl) | rfl) | rfl) | rfl <;> exact absurd h (by decide)

theorem markup_of_isLetter {d : Char} (hd : isLetter d = true) (body : Text) :
    markup (d :: body) = startTag d body := by
  have hbang : d ≠ '!' := by rintro rfl; exact absurd hd (by decide)
  have hquery : d ≠ '?' := by rintro rfl; exact absurd hd (by decide)
  have hslash : d ≠ '/' := by rintro rfl; exact absurd hd (by decide)
  rw [markup.eq_def]
  split
  · rename_i heq
    exact absurd (List.cons.inj heq).1 hbang
  · rename_i heq
    exact absurd (List.cons.inj heq).1 hbang
  · rename_i heq
    exact absurd (List.cons.inj heq).1 hquery
  · rename_i heq
    exact absurd (List.cons.inj heq).1 hslash
  · rename_i heq
    obtain ⟨rfl, rfl⟩ := List.cons.inj heq
    rw [if_pos hd]
  · rename_i heq
    cases heq

/-- **A letter after `<` and a passable text up to the `>` are a start tag.** -/
theorem next_of_passable {letter : Char} (hl : isLetter letter = true) {w : Text}
    (h : Passable w) (r : Text) :
    next '<' (letter :: w ++ '>' :: r) =
      ⟨'<' :: letter :: w ++ ['>'], .startTag (StartTag.parse ('<' :: letter :: w ++ ['>'])),
        r⟩ := by
  rw [next, if_pos rfl, List.cons_append, markup_of_isLetter hl, startTag, cutTag_of_passable h]
  rfl

end Lexeme

/-! ## The attributes of a tag -/

namespace Attribute

theorem scan_of_nil {t : Text} (h : t.dropWhile isGap = []) : scan t = [] := by
  rw [scan.eq_def]
  split
  · rfl
  · rename_i heq
    rw [h] at heq
    cases heq

theorem scan_of_cons {t rest : Text} {c : Char} (h : t.dropWhile isGap = c :: rest) :
    scan t =
      if isNameChar c then
        ⟨lower (c :: rest.takeWhile isNameChar), (scanAfterName (rest.dropWhile isNameChar)).1⟩ ::
          scan (scanAfterName (rest.dropWhile isNameChar)).2
      else scan rest := by
  rw [scan.eq_def]
  split
  · rename_i heq
    rw [h] at heq
    cases heq
  · rename_i heq
    rw [h] at heq
    cases heq
    rfl

theorem scan_space (t : Text) : scan (' ' :: t) = scan t := by
  have hgap : (' ' :: t).dropWhile isGap = t.dropWhile isGap := by simp [isGap, isBlank]
  cases h : t.dropWhile isGap with
  | nil => rw [scan_of_nil h, scan_of_nil (hgap.trans h)]
  | cons c rest => rw [scan_of_cons h, scan_of_cons (hgap.trans h)]

/-- What can stand behind a name without being taken for a part of the attribute. -/
def Behind (t : Text) : Prop :=
  t = [] ∨ ∃ c rest, t = ' ' :: c :: rest ∧ isBlank c = false ∧ c ≠ '='

/-- A name is read as far as it goes. -/
theorem scan_name {name : Text} (hne : name ≠ []) (h : ∀ c ∈ name, isNameChar c = true) {t : Text}
    (ht : ∀ c rest, t = c :: rest → isNameChar c = false) :
    scan (' ' :: name ++ t) = ⟨lower name, (scanAfterName t).1⟩ :: scan (scanAfterName t).2 := by
  obtain ⟨c, name, rfl⟩ := List.exists_cons_of_ne_nil hne
  obtain ⟨hc, hname⟩ := List.forall_mem_cons.1 h
  have hgap : isGap c = false := by
    obtain ⟨hblank, hslash, -⟩ := isNameChar_iff.1 hc
    simp [isGap, hblank, hslash]
  have hdrop : t.dropWhile isNameChar = t ∧ t.takeWhile isNameChar = [] := by
    cases t with
    | nil => simp
    | cons d rest => simp [ht d rest rfl]
  have hstart : (c :: name ++ t).dropWhile isGap = c :: (name ++ t) := by simp [hgap]
  rw [List.cons_append, scan_space, scan_of_cons hstart, if_pos hc,
    List.dropWhile_append_of_pos hname, List.takeWhile_append_of_pos hname, hdrop.1, hdrop.2,
    List.append_nil]

theorem scan_bare {name : Text} (hne : name ≠ []) (h : ∀ c ∈ name, isNameChar c = true) {t : Text}
    (ht : Behind t) : scan (' ' :: name ++ t) = ⟨lower name, none⟩ :: scan t := by
  rcases ht with rfl | ⟨c, rest, rfl, hblank, hequals⟩
  · rw [scan_name hne h (by simp)]
    rfl
  · have hspace : isBlank ' ' = true := by decide
    have hafter : scanAfterName (' ' :: c :: rest) = (none, c :: rest) := by
      simp [scanAfterName, hspace, hblank, hequals]
    rw [scan_name hne h, hafter, scan_space]
    intro d r heq
    cases heq
    decide

theorem scan_valued {name : Text} (hne : name ≠ []) (h : ∀ c ∈ name, isNameChar c = true) {q : Char}
    (hq : isQuote q = true) (v t : Text) :
    scan (' ' :: name ++ '=' :: q :: escape v ++ q :: t) = ⟨lower name, some v⟩ :: scan t := by
  have hequals : isBlank '=' = false := by decide
  have hquote : isBlank q = false := by rcases eq_of_isQuote hq with rfl | rfl <;> decide
  have hvalue : ∀ c ∈ escape v, (c != q) = true := by
    intro c hc
    have hne : c ≠ q := fun hcq => not_mem_escape_of_isQuote hq v (hcq ▸ hc)
    simpa using hne
  have hscan : scanValue (q :: (escape v ++ q :: t)) = (v, t) := by
    rw [scanValue, if_pos (eq_of_isQuote hq), List.takeWhile_append_of_pos hvalue,
      List.dropWhile_append_of_pos hvalue]
    simp [decode_escape]
  have hafter : scanAfterName ('=' :: q :: (escape v ++ q :: t)) = (some v, t) := by
    simp [scanAfterName, hequals, hquote, hscan]
  have happ : ' ' :: name ++ '=' :: q :: escape v ++ q :: t =
      ' ' :: name ++ '=' :: q :: (escape v ++ q :: t) := by simp
  rw [happ, scan_name hne h, hafter]
  intro c r heq
  cases heq
  decide

/-- A name that is read back as it is written. -/
structure WritableName (name : Text) : Prop where
  ne_nil : name ≠ []
  small : lower name = name
  plain : ∀ c ∈ name, isNameChar c = true ∧ c ≠ '<'

instance : DecidablePred WritableName := fun name =>
  decidable_of_iff
    (name ≠ [] ∧ lower name = name ∧ name.all (fun c => isNameChar c = true ∧ c ≠ '<') = true)
    ⟨fun ⟨h1, h2, h3⟩ => ⟨h1, h2, List.all_iff_forall_prop.1 h3⟩,
      fun ⟨h1, h2, h3⟩ => ⟨h1, h2, List.all_iff_forall_prop.2 h3⟩⟩

/-- Attributes as they are written, each with its own quotes. -/
def writtenAll (l : List (Char × Attribute)) : Text := l.flatMap fun (q, a) => a.written q

theorem behind_writtenAll {l : List (Char × Attribute)} (h : ∀ x ∈ l, WritableName x.2.name)
    {t : Text} (ht : Behind t) : Behind (writtenAll l ++ t) := by
  cases l with
  | nil => exact ht
  | cons x l =>
    obtain ⟨q, ⟨name, value⟩⟩ := x
    obtain ⟨hne, -, hplain⟩ := h _ List.mem_cons_self
    obtain ⟨c, name, rfl⟩ := List.exists_cons_of_ne_nil hne
    obtain ⟨hblank, -, hequals, -⟩ := isNameChar_iff.1 (hplain c List.mem_cons_self).1
    exact .inr ⟨c, _, rfl, hblank, hequals⟩

/-- Written attributes are read back, and what stands behind them is read by itself. -/
theorem scan_writtenAll {l : List (Char × Attribute)}
    (h : ∀ x ∈ l, isQuote x.1 = true ∧ WritableName x.2.name) {t : Text} (ht : Behind t) :
    scan (writtenAll l ++ t) = l.map (·.2) ++ scan t := by
  induction l with
  | nil => rfl
  | cons x l ih =>
    obtain ⟨⟨hq, ha⟩, hl⟩ := List.forall_mem_cons.1 h
    obtain ⟨q, ⟨name, value⟩⟩ := x
    have hname : ∀ c ∈ name, isNameChar c = true := fun c hc => (ha.plain c hc).1
    have hsmall : lower name = name := ha.small
    have hrest := behind_writtenAll (fun x hx => (hl x hx).2) ht
    rw [List.map_cons, List.cons_append, ← ih hl]
    cases value with
    | none =>
      have hbare := scan_bare ha.ne_nil hname hrest
      rw [hsmall] at hbare
      simpa [writtenAll, written] using hbare
    | some v =>
      have hvalued := scan_valued ha.ne_nil hname hq v (writtenAll l ++ t)
      rw [hsmall] at hvalued
      simpa [writtenAll, written] using hvalued

theorem passable_writtenAll {l : List (Char × Attribute)}
    (h : ∀ x ∈ l, isQuote x.1 = true ∧ WritableName x.2.name) : Lexeme.Passable (writtenAll l) := by
  apply Lexeme.passable_flatMap
  intro x hx
  obtain ⟨hq, ha⟩ := h x hx
  refine Lexeme.passable_written (fun c hc => ?_) hq
  obtain ⟨hc, hless⟩ := ha.plain c hc
  obtain ⟨-, -, hequals, hgreater⟩ := isNameChar_iff.1 hc
  exact ⟨hequals, hless, hgreater⟩

theorem keepFirst_eq_self {l : List Attribute} {seen : List Text} (hnd : (l.map (·.name)).Nodup)
    (hseen : ∀ a ∈ l, a.name ∉ seen) : keepFirst seen l = l := by
  induction l generalizing seen with
  | nil => rfl
  | cons a l ih =>
    obtain ⟨ha, hl⟩ := List.forall_mem_cons.1 hseen
    rw [List.map_cons, List.nodup_cons] at hnd
    rw [keepFirst, if_neg ha, ih hnd.2]
    intro b hb hmem
    rcases List.mem_cons.1 hmem with heq | hmem
    · exact hnd.1 (heq ▸ List.mem_map_of_mem hb)
    · exact hl b hb hmem

theorem keepFirst_sublist (seen : List Text) (l : List Attribute) :
    (keepFirst seen l).Sublist l := by
  induction l generalizing seen with
  | nil => exact List.Sublist.slnil
  | cons a l ih =>
    rw [keepFirst]
    split
    · exact (ih seen).cons a
    · exact (ih (a.name :: seen)).cons_cons a

end Attribute

/-! ## The tag itself -/

namespace Text

theorem getLast?_trimEnd (t : Text) :
    (trimEnd t).getLast? = (t.reverse.dropWhile isWhiteSpace).head? := by
  rw [trimEnd, trimEndWhere, List.getLast?_reverse]

theorem getLast?_trimEnd_concat {c : Char} (h : isWhiteSpace c = false) (t : Text) :
    (trimEnd (t ++ [c])).getLast? = some c := by
  simp [getLast?_trimEnd, h]

/-- What is added to a text and is no `/` does not bring one to its end. -/
theorem getLast?_trimEnd_append {s w : Text} (hs : (trimEnd s).getLast? ≠ some '/')
    (hw : ∀ c ∈ w, c ≠ '/') : (trimEnd (s ++ w)).getLast? ≠ some '/' := by
  rw [getLast?_trimEnd, List.reverse_append]
  rw [getLast?_trimEnd] at hs
  have hw' : ∀ c ∈ w.reverse, c ≠ '/' := fun c hc => hw c (List.mem_reverse.1 hc)
  generalize w.reverse = w at hw'
  induction w with
  | nil => exact hs
  | cons c w ih =>
    obtain ⟨hc, hw'⟩ := List.forall_mem_cons.1 hw'
    cases hblank : isWhiteSpace c with
    | true => simpa [hblank] using ih hw'
    | false => simpa [hblank] using hc

end Text

theorem Attribute.getLast?_trimEnd_writtenAll {l : List (Char × Attribute)}
    (h : ∀ x ∈ l, isQuote x.1 = true ∧ Attribute.WritableName x.2.name) {s : Text}
    (hs : (trimEnd s).getLast? ≠ some '/') :
    (trimEnd (s ++ writtenAll l)).getLast? ≠ some '/' := by
  induction l generalizing s with
  | nil => simpa [writtenAll] using hs
  | cons x l ih =>
    obtain ⟨⟨hq, ha⟩, hl⟩ := List.forall_mem_cons.1 h
    obtain ⟨q, ⟨name, value⟩⟩ := x
    have happ : s ++ writtenAll ((q, ⟨name, value⟩) :: l) =
        (s ++ written q ⟨name, value⟩) ++ writtenAll l := by simp [writtenAll]
    rw [happ]
    apply ih hl
    cases value with
    | none =>
      apply getLast?_trimEnd_append hs
      intro c hc
      rcases List.mem_cons.1 (by simpa [written] using hc) with rfl | hc
      · decide
      · obtain ⟨-, hslash, -⟩ := isNameChar_iff.1 (ha.plain c hc).1
        exact hslash
    | some v =>
      have hblank : isWhiteSpace q = false := by rcases eq_of_isQuote hq with rfl | rfl <;> decide
      have hlast : s ++ written q ⟨name, some v⟩ =
          (s ++ ' ' :: name ++ '=' :: q :: escape v) ++ [q] := by simp [written]
      rw [hlast, getLast?_trimEnd_concat hblank]
      rcases eq_of_isQuote hq with rfl | rfl <;> decide

namespace StartTag

theorem interior_of_brackets (t : Text) : interior ('<' :: t ++ ['>']) = t := by
  simp [interior]

/-- The name goes up to the first space. -/
theorem parse_of_name {name w : Text} (h : ∀ c ∈ name, isBlank c = false ∧ c ≠ '/')
    (hw : w = [] ∨ ∃ rest, w = ' ' :: rest) :
    parse ('<' :: (name ++ w) ++ ['>']) =
      ⟨lower name, Attribute.keepFirst [] (Attribute.scan w),
        (trimEnd w).getLast? == some '/'⟩ := by
  have hname : ∀ c ∈ name, (!(isBlank c || c == '/')) = true := by
    intro c hc
    obtain ⟨h1, h2⟩ := h c hc
    simp [h1, h2]
  have hrest : w.dropWhile (fun c => !(isBlank c || c == '/')) = w ∧
      w.takeWhile (fun c => !(isBlank c || c == '/')) = [] := by
    rcases hw with rfl | ⟨rest, rfl⟩
    · simp
    · simp [isBlank]
  rw [parse, interior_of_brackets]
  simp only [List.dropWhile_append_of_pos hname, List.takeWhile_append_of_pos hname, hrest,
    List.append_nil]

/-- A start tag as it is written. -/
def written (name : Text) (l : List (Char × Attribute)) (closes : Bool) : Text :=
  '<' :: (name ++ (Attribute.writtenAll l ++ if closes then " /".toList else [])) ++ ['>']

/-- The attributes that are read, and whether the tag closes itself. -/
theorem parse_written {name : Text} (hname : ∀ c ∈ name, isBlank c = false ∧ c ≠ '/')
    {l : List (Char × Attribute)}
    (h : ∀ x ∈ l, isQuote x.1 = true ∧ Attribute.WritableName x.2.name)
    (hnd : (l.map (·.2.name)).Nodup) (closes : Bool) :
    parse (written name l closes) = ⟨lower name, l.map (·.2), closes⟩ := by
  have hend : Attribute.Behind (if closes then " /".toList else []) := by
    cases closes with
    | false => exact .inl rfl
    | true => exact .inr ⟨'/', [], rfl, by decide, by decide⟩
  have hscan : Attribute.scan (if closes then " /".toList else []) = [] := by
    cases closes <;> exact Attribute.scan_of_nil rfl
  have hstart : Attribute.writtenAll l ++ (if closes then " /".toList else []) = [] ∨
      ∃ rest, Attribute.writtenAll l ++ (if closes then " /".toList else []) = ' ' :: rest := by
    rcases Attribute.behind_writtenAll (fun x hx => (h x hx).2) hend with hnil | ⟨c, rest, heq, -⟩
    · exact .inl hnil
    · exact .inr ⟨c :: rest, heq⟩
  have hkeep : Attribute.keepFirst [] (l.map (·.2)) = l.map (·.2) := by
    apply Attribute.keepFirst_eq_self
    · rw [List.map_map]
      exact hnd
    · simp
  have hself : ((trimEnd (Attribute.writtenAll l ++ if closes then " /".toList else [])).getLast? ==
      some '/') = closes := by
    cases closes with
    | true =>
      have hlast : Attribute.writtenAll l ++ " /".toList =
          (Attribute.writtenAll l ++ [' ']) ++ ['/'] := by simp
      rw [if_pos rfl, hlast, getLast?_trimEnd_concat (by decide)]
      rfl
    | false =>
      have hne := Attribute.getLast?_trimEnd_writtenAll h (s := []) (by decide)
      simpa using hne
  rw [written, parse_of_name hname hstart, Attribute.scan_writtenAll h hend, hscan,
    List.append_nil, hkeep, hself]

end StartTag

/-- A start tag that is read back as it is written. -/
structure StartTag.Writable (letter : Char) (name : Text) (l : List (Char × Attribute)) : Prop where
  letter : Lexeme.isLetter letter = true
  name : ∀ c ∈ name, Attribute.isNameChar c = true ∧ c ≠ '<'
  attributes : ∀ x ∈ l, isQuote x.1 = true ∧ Attribute.WritableName x.2.name
  nodup : (l.map (·.2.name)).Nodup

/-- **A written start tag is the next lexeme, whatever follows it.** -/
theorem Lexeme.next_written {letter : Char} {name : Text} {l : List (Char × Attribute)}
    (h : StartTag.Writable letter name l) (closes : Bool) (r : Text) :
    next '<' (letter :: (name ++ (Attribute.writtenAll l ++ if closes then " /".toList else [])) ++
        '>' :: r) =
      ⟨StartTag.written (letter :: name) l closes,
        .startTag ⟨lower (letter :: name), l.map (·.2), closes⟩, r⟩ := by
  have hpass : Passable
      (name ++ (Attribute.writtenAll l ++ if closes then " /".toList else [])) := by
    refine passable_append (passable_of_ne fun c hc => ?_)
      (passable_append (Attribute.passable_writtenAll h.attributes) ?_)
    · obtain ⟨hc, hless⟩ := h.name c hc
      obtain ⟨-, -, hequals, hgreater⟩ := Attribute.isNameChar_iff.1 hc
      exact ⟨hequals, hless, hgreater⟩
    · cases closes with
      | false => exact passable_nil
      | true => exact passable_of_ne (List.all_iff_forall_prop.1 (by decide))
  have hslash : letter ≠ '/' := by rintro rfl; exact absurd h.letter (by decide)
  have hblank := isBlank_of_isLetter h.letter
  have hall : ∀ c ∈ letter :: name, isBlank c = false ∧ c ≠ '/' := by
    refine List.forall_mem_cons.2 ⟨⟨hblank, hslash⟩, fun c hc => ?_⟩
    obtain ⟨hblank, hslash, -⟩ := Attribute.isNameChar_iff.1 (h.name c hc).1
    exact ⟨hblank, hslash⟩
  rw [next_of_passable h.letter hpass, ← StartTag.parse_written hall h.attributes h.nodup closes,
    StartTag.written]
  rfl

/-- **A start tag that is written at the front of a source is its first lexeme**, and has the name
and the attributes that have been written. What follows is lexed by itself. -/
theorem Lexeme.all_written {letter : Char} {name : Text} {l : List (Char × Attribute)}
    (h : StartTag.Writable letter name l) (closes : Bool) (start : Nat) (r : Text) :
    all start (StartTag.written (letter :: name) l closes ++ r) =
      ⟨⟨start, StartTag.written (letter :: name) l closes⟩,
        .startTag ⟨lower (letter :: name), l.map (·.2), closes⟩⟩ ::
        all (start + (StartTag.written (letter :: name) l closes).utf8Size) r := by
  have hsource : StartTag.written (letter :: name) l closes ++ r =
      '<' :: (letter :: (name ++
        (Attribute.writtenAll l ++ if closes then " /".toList else [])) ++ '>' :: r) := by
    simp [StartTag.written]
  rw [hsource, all, next_written h]

/-- Both quotes, brackets, a reference and a slash in a value, quotes in the names, and an open
quote behind the tag. -/
theorem Lexeme.all_written_hostile :
    let l : List (Char × Attribute) :=
      [('\'', ⟨"t\"".toList, some "é\"'<>=&amp; /".toList⟩), ('"', ⟨"x".toList, none⟩),
        ('"', ⟨"'".toList, some []⟩)]
    let written := "<Img' t\"='é&quot;&#39;&lt;&gt;=&amp;amp; /' x '=\"\" />".toList
    StartTag.Writable 'I' "mg'".toList l ∧
      all 0 (written ++ "=\"<b>".toList) =
        ⟨⟨0, written⟩, .startTag ⟨"img'".toList, l.map (·.2), true⟩⟩ :: all 54 "=\"<b>".toList := by
  intro l written
  have h : StartTag.Writable 'I' "mg'".toList l :=
    ⟨by decide, List.all_iff_forall_prop.1 (by decide), List.all_iff_forall_prop.1 (by decide),
      by decide⟩
  exact ⟨h, all_written h true 0 "=\"<b>".toList⟩

/-- Attributes with values, all in double quotes. -/
def Attribute.quoted (l : List (Text × Text)) : List (Char × Attribute) :=
  l.map fun (name, value) => ('"', ⟨name, some value⟩)

theorem StartTag.writable_quoted {letter : Char} {name : Text} {l : List (Text × Text)}
    (hl : Lexeme.isLetter letter = true)
    (hname : ∀ c ∈ name, Attribute.isNameChar c = true ∧ c ≠ '<')
    (h : ∀ name ∈ l.map (·.1), Attribute.WritableName name) (hnd : (l.map (·.1)).Nodup) :
    Writable letter name (Attribute.quoted l) := by
  refine ⟨hl, hname, ?_, ?_⟩
  · intro x hx
    obtain ⟨y, hy, rfl⟩ := List.mem_map.1 hx
    exact ⟨rfl, h y.1 (List.mem_map_of_mem hy)⟩
  · rw [Attribute.quoted, List.map_map]
    exact hnd

end RichContent
