/-
The lexemes of a source, with every cut that is made for one by its bytes.

A start tag is looked through byte by byte (`Lexeme.tagExtentFrom`), and the byte
that ends it is found where the scan by characters finds it
(`Lexeme.tagExtent?_eq`). What comes next in a source is cut off at a boundary,
whatever it is (`Lexeme.next?_eq`).
-/
import RichContent.Proofs.Markup.ByteScan
import RichContent.Proofs.Markup.EndTags
import RichContent.Proofs.Markup.TagEnd

namespace RichContent

open Text

namespace Lexeme

/-! ## Where a start tag ends -/

/-- Looks through the bytes of a tag, of which `i` have been passed. `quote` is the quote of the
value that the scan is in, `last` the last byte that is no blank. What is found is the size of the
tag, or that it is none; without either the bytes run out. -/
def tagExtentFrom (quote : Option Char) (last : Char) (i : Nat) : List Char → Option (Option Nat)
  | [] => none
  | c :: rest =>
    match quote with
    | some q =>
      if c = q then tagExtentFrom none c (i + 1) rest else tagExtentFrom quote last (i + 1) rest
    | none =>
      if (c = '"' ∨ c = '\'') ∧ last = '=' then tagExtentFrom (some c) c (i + 1) rest
      else if c = '>' then some (some (i + 1))
      else if c = '<' then some none
      else tagExtentFrom none (if isBlank c then last else c) (i + 1) rest

/-- The size of the rest of a start tag, if it is one. Where the bytes run out the first angle
bracket decides, which has to be where it has been found. -/
def tagExtent? (t : Text) : Option (Option Nat) :=
  match tagExtentFrom none '\x00' 0 (codes t) with
  | some found => some found
  | none =>
    match placeOf? (fun c => c == '<' || c == '>') t with
    | none => some none
    | some stop => ((codes t)[stop]?).map fun c => if c = '>' then some (stop + 1) else none

/-- The size of the tag, if the scan has found where it ends. -/
def TagEnd.extent (i : Nat) : TagEnd → Option (Option Nat)
  | closed rest _ => some (some (i + rest.utf8Size))
  | broken => some none
  | ranOut => none

theorem TagEnd.extent_cons (e : TagEnd) (c : Char) (i : Nat) :
    (e.cons c).extent i = e.extent (i + c.utf8Size) := by
  cases e with
  | closed rest after => simp [TagEnd.cons, extent, Nat.add_assoc]
  | broken => rfl
  | ranOut => rfl

/-- In a value nothing but its quote is looked for. -/
theorem tagExtentFrom_quoted {q : Char} {l : List Char} (h : ∀ c ∈ l, c ≠ q) (last : Char) (i : Nat)
    (rest : List Char) :
    tagExtentFrom (some q) last i (l ++ rest) = tagExtentFrom (some q) last (i + l.length) rest := by
  induction l generalizing i with
  | nil => rfl
  | cons c l ih =>
    obtain ⟨hc, hl⟩ := List.forall_mem_cons.1 h
    rw [List.cons_append, tagExtentFrom, if_neg hc, ih hl, List.length_cons, Nat.add_assoc,
      Nat.add_comm 1]

/-- Bytes that are no ASCII characters are passed over, and the last of them is no `=`. -/
theorem tagExtentFrom_other {l : List Char} (hne : l ≠ []) (h : ∀ c ∈ l, 128 ≤ c.toNat) (last : Char)
    (i : Nat) (rest : List Char) :
    ∃ last', last' ≠ '=' ∧
      tagExtentFrom none last i (l ++ rest) = tagExtentFrom none last' (i + l.length) rest := by
  induction l generalizing last i with
  | nil => exact absurd rfl hne
  | cons c l ih =>
    obtain ⟨hc, hl⟩ := List.forall_mem_cons.1 h
    have hother (d : Char) (hd : d.toNat < 128) : c ≠ d := ne_of_other hc hd
    have hstep : tagExtentFrom none last i (c :: l ++ rest) =
        tagExtentFrom none c (i + 1) (l ++ rest) := by
      rw [List.cons_append, tagExtentFrom,
        if_neg fun hq => hq.1.elim (hother '"' (by decide)) (hother '\'' (by decide)),
        if_neg (hother '>' (by decide)), if_neg (hother '<' (by decide)), isBlank_of_other hc]
      rfl
    cases l with
    | nil => exact ⟨c, hother '=' (by decide), hstep⟩
    | cons d l =>
      obtain ⟨last', hlast, hrest⟩ := ih (List.cons_ne_nil d l) hl c (i + 1)
      refine ⟨last', hlast, hstep.trans (hrest.trans ?_)⟩
      rw [List.length_cons (a := c), Nat.add_assoc, Nat.add_comm 1]

/-- The bytes are looked through as the characters are. -/
theorem tagExtentFrom_codes {quote : Option Char} (hquote : ∀ q ∈ quote, q = '"' ∨ q = '\'')
    (last : Char) (i : Nat) (t : Text) :
    tagExtentFrom quote last i (codes t) = (scanTag quote (last == '=') t).extent i := by
  induction t generalizing quote last i with
  | nil => rfl
  | cons c t ih =>
    rw [codes_cons, scanTag.eq_def]
    by_cases hc : c.toNat < 128
    · have hsize := utf8Size_ascii hc
      rw [codesOf_ascii hc, List.singleton_append, tagExtentFrom.eq_def]
      cases quote with
      | some q =>
        dsimp only
        split
        · rename_i heq
          have hno : (c == '=') = false := by
            rcases hquote q rfl with rfl | rfl <;> rw [heq] <;> decide
          rw [TagEnd.extent_cons, hsize, ih (by simp), hno]
        · rw [TagEnd.extent_cons, hsize, ih hquote]
      | none =>
        simp only [beq_iff_eq]
        split
        · rename_i hopens
          have hno : (c == '=') = false := by
            rcases hopens.1 with rfl | rfl <;> decide
          rw [TagEnd.extent_cons, hsize, ih (by simpa using hopens.1), hno]
        · split
          · rfl
          · split
            · rfl
            · rw [TagEnd.extent_cons, hsize, ih (by simp)]
              split <;> rfl
    · have hbytes : ∀ d ∈ codesOf c, 128 ≤ d.toNat := fun d => mem_codesOf (by omega)
      have hother (e : Char) (he : e.toNat < 128) : c ≠ e := ne_of_other (by omega) he
      cases quote with
      | some q =>
        have hq : q.toNat < 128 := by rcases hquote q rfl with rfl | rfl <;> decide
        have hne : c ≠ q := hother q hq
        rw [tagExtentFrom_quoted fun d hd => ne_of_other (hbytes d hd) hq, length_codesOf]
        dsimp only
        rw [if_neg hne, TagEnd.extent_cons, ih hquote]
      | none =>
        have hne : codesOf c ≠ [] := by
          rw [← List.length_pos_iff, length_codesOf]
          exact c.utf8Size_pos
        obtain ⟨last', hlast, hpassed⟩ := tagExtentFrom_other hne hbytes last i (codes t)
        rw [hpassed, length_codesOf, ih (by simp), beq_eq_false_iff_ne.2 hlast]
        dsimp only
        rw [if_neg fun hq => hq.1.elim (hother '"' (by decide)) (hother '\'' (by decide)),
          if_neg (hother '>' (by decide)), if_neg (hother '<' (by decide)),
          isBlank_of_other (by omega), TagEnd.extent_cons, if_neg Bool.false_ne_true,
          decide_eq_false (hother '=' (by decide))]

/-- **The end of a start tag is found by its bytes where it is found by its characters.** -/
theorem tagExtent?_eq (t : Text) : tagExtent? t = some ((cutTag t).map fun x => x.1.utf8Size) := by
  have hscan : tagExtentFrom none '\x00' 0 (codes t) =
      (scanTag none ('\x00' == '=') t).extent 0 := tagExtentFrom_codes (by simp) '\x00' 0 t
  rw [tagExtent?, hscan, cutTag]
  have hlast : ('\x00' == '=') = false := by decide
  rw [hlast]
  cases scanTag none false t with
  | closed rest after => simp [TagEnd.extent]
  | broken => rfl
  | ranOut =>
    simp only [TagEnd.extent]
    have hbare {w : Text} (h : ∀ c ∈ w, (c == '<' || c == '>') = false) : Bare w := fun c hc => by
      simpa using h c hc
    rcases forall_or_exists_first (fun c => c == '<' || c == '>') t with
      hno | ⟨front, c, back, rfl, hfront, hc⟩
    · have hcut := cutPlainTag_append (hbare hno) []
      rw [List.append_nil] at hcut
      rw [placeOf?_eq_none hno, hcut]
      rfl
    · obtain ⟨d, hd, hget⟩ := getElem?_codes front c back
      rw [placeOf?_append hfront hc, cutPlainTag_append (hbare hfront)]
      dsimp only
      rw [hget]
      have hbracket : c = '<' ∨ c = '>' := by simpa using hc
      rcases hbracket with rfl | rfl
      · obtain rfl := (eq_iff_of_mem_codesOf (e := '<') (by decide) hd).2 rfl
        simp [cutPlainTag]
      · obtain rfl := (eq_iff_of_mem_codesOf (e := '>') (by decide) hd).2 rfl
        have hsize : utf8Size ['>'] = 1 := rfl
        simp [cutPlainTag, hsize]

/-! ## What comes next -/

/-- Reads the name of an end tag from its text. -/
def endTagName? (t : Text) : Option Text := (cut? 2 (t.utf8Size - 1) t).map endTagName

/-- An end tag is cut behind its `</` and before its `>`. -/
theorem endTagName?_eq (inner : Text) :
    endTagName? ('<' :: '/' :: inner ++ ['>']) = some (endTagName inner) := by
  have hcut := cut?_append ['<', '/'] inner ['>']
  have hsize : utf8Size ('<' :: '/' :: inner ++ ['>']) = utf8Size (['<', '/'] ++ inner) + 1 :=
    utf8Size_append ('<' :: '/' :: inner) ['>']
  rw [endTagName?, hsize, Nat.add_sub_cancel]
  exact congrArg (Option.map endTagName) hcut

/-- A comment, after its `<!--`. -/
def comment? (body : Text) : Option Step :=
  match cutAt "-->".toList body with
  | none => some ⟨"<!--".toList, .unfinished, body⟩
  | some (before, _) =>
    (split? (before.utf8Size + 3) body).map fun cut => ⟨"<!--".toList ++ cut.1, .comment, cut.2⟩

/-- A start tag, after its `<` and first letter. -/
def startTag? (letter : Char) (body : Text) : Option Step :=
  (tagExtent? body).bind fun extent =>
    match extent with
    | none => some ⟨['<', letter], .unfinished, body⟩
    | some size =>
      (split? size body).bind fun cut =>
        (StartTag.parse? ('<' :: letter :: cut.1)).map fun tag =>
          ⟨'<' :: letter :: cut.1, .startTag tag, cut.2⟩

/-- An end tag, after its `</` and first letter. -/
def endTag? (letter : Char) (body : Text) : Option Step :=
  match cutAfterGreater body with
  | none => some ⟨'<' :: '/' :: letter :: body, .unfinished, []⟩
  | some (before, after) =>
    (endTagName? ('<' :: '/' :: letter :: before)).map fun name =>
      ⟨'<' :: '/' :: letter :: before, .endTag name, after⟩

/-- What comes next after a `<`. Declarations and instructions are taken whole and not cut any
more. -/
def markup? (rest : Text) : Option Step :=
  match rest with
  | '!' :: '-' :: '-' :: body => comment? body
  | '/' :: d :: body => if isLetter d then endTag? d body else some (markup rest)
  | d :: body => if isLetter d then startTag? d body else some (markup rest)
  | [] => some (markup rest)

/-- What comes next in a source that begins with `c`. -/
def next? (c : Char) (rest : Text) : Option Step :=
  if c = '<' then markup? rest else some (next c rest)

theorem comment?_eq (body : Text) : comment? body = some (comment body) := by
  rw [comment?, comment]
  cases hcut : cutAt "-->".toList body with
  | none => rfl
  | some cut =>
    obtain ⟨before, after⟩ := cut
    have hsplit := split?_append (before ++ "-->".toList) after
    rw [append_of_cutAt hcut, utf8Size_append] at hsplit
    have hsize : utf8Size "-->".toList = 3 := rfl
    rw [hsize] at hsplit
    simp only [hsplit, Option.map_some, List.append_assoc]

theorem startTag?_eq (letter : Char) (body : Text) :
    startTag? letter body = some (startTag letter body) := by
  rw [startTag?, startTag, tagExtent?_eq, Option.bind_some]
  cases hcut : cutTag body with
  | none => rfl
  | some cut =>
    obtain ⟨rest, after⟩ := cut
    have hsplit := split?_append rest after
    rw [append_of_cutTag hcut] at hsplit
    simp only [Option.map_some, hsplit, Option.bind_some, StartTag.parse?_eq]

theorem endTag?_eq (letter : Char) (body : Text) : endTag? letter body =
    some (toGreater ['<', '/', letter] body fun inner => .endTag (endTagName (letter :: inner))) := by
  rw [endTag?, toGreater]
  cases hcut : cutAfterGreater body with
  | none => rfl
  | some cut =>
    obtain ⟨before, after⟩ := cut
    obtain ⟨w, rfl, -⟩ := cutAfterGreater_eq_some hcut
    have hname := endTagName?_eq (letter :: w)
    simp only [List.cons_append] at hname
    simp only [hname, Option.map_some, List.dropLast_concat, List.cons_append, List.nil_append]

theorem markup?_eq (rest : Text) : markup? rest = some (markup rest) := by
  rw [markup?.eq_def]
  split
  · exact comment?_eq _
  · split
    · rename_i hd
      rw [endTag?_eq, markup, if_pos hd]
    · rfl
  · split
    · rename_i hd
      rw [startTag?_eq, markup_of_isLetter hd]
    · rfl
  · rfl

/-- **What comes next in a source is cut off without a cut that fails.** -/
theorem next?_eq (c : Char) (rest : Text) : next? c rest = some (next c rest) := by
  rw [next?, next]
  split
  · exact markup?_eq rest
  · rfl

/-- The name of every end tag of a source is cut out of it. -/
theorem endTagName?_of_mem_all {start : Nat} {t : Text} {x : Lexeme} (h : x ∈ all start t)
    {name : Text} (hname : x.kind = .endTag name) : endTagName? x.slice.text = some name := by
  obtain ⟨c, rest, htext, hkind⟩ := next_of_mem_all h
  have hshape := shape_next c rest
  rw [← hkind, hname, ← htext] at hshape
  obtain ⟨⟨letter, body, -, hbody, rfl⟩, -⟩ := hshape
  rw [hbody]
  exact endTagName?_eq (letter :: body)

end Lexeme

end RichContent
