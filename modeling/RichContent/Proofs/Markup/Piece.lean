/-
The pieces of markup that was written: a start tag, a run of text, an end tag,
and an element whose content is taken as it stands. Each is the next piece
whatever comes behind it, so the pieces of a whole are read off one by one.

Content that is taken as it stands ends with the first `</` and the name, so
it is kept whole if there is no `</` in it (`Endless`).
-/
import Mathlib.Data.List.Chain
import Mathlib.Data.List.TakeWhile
import RichContent.Markup.Forest.Growth
import RichContent.Proofs.Markup.StartTag

namespace RichContent

open Text

/-- No `</` is in the text. -/
def Text.Endless (t : Text) : Prop := t.IsChain fun c d => ¬ (c = '<' ∧ d = '/')

theorem Text.endless_of_ne {t : Text} (h : ∀ c ∈ t, c ≠ '<') : Endless t := by
  unfold Endless
  induction t with
  | nil => exact List.isChain_nil
  | cons c t ih =>
    obtain ⟨hc, ht⟩ := List.forall_mem_cons.1 h
    refine List.isChain_cons.2 ⟨?_, ih ht⟩
    intro d _ hcd
    exact hc hcd.1

theorem Text.endless_append {s t : Text} (hs : Endless s) (ht : Endless t)
    (h : s.getLast? ≠ some '<' ∨ t.head? ≠ some '/') : Endless (s ++ t) := by
  refine List.isChain_append.2 ⟨hs, ht, ?_⟩
  rintro c hc d hd ⟨rfl, rfl⟩
  rcases h with h | h
  · exact h hc
  · exact h hd

/-- An end tag as it is written. -/
def Lexeme.endTagText (name : Text) : Text := '<' :: '/' :: name ++ ['>']

theorem Text.cutAfterGreater_append {s : Text} (h : ∀ c ∈ s, c ≠ '>') (r : Text) :
    cutAfterGreater (s ++ '>' :: r) = some (s ++ ['>'], r) := by
  induction s with
  | nil => simp [cutAfterGreater]
  | cons c s ih =>
    obtain ⟨hc, hs⟩ := List.forall_mem_cons.1 h
    simp [cutAfterGreater, hc, ih hs]

/-- Only letters are made small. -/
theorem Text.eq_of_toLower {c d : Char} (hd : d.isAlpha = false) (h : c.toLower = d) : c = d := by
  unfold Char.toLower at h
  split at h
  · rename_i hc
    obtain ⟨h1, h2⟩ := hc
    have hA : 'A'.val.toNat = 65 := rfl
    have hZ : 'Z'.val.toNat = 90 := rfl
    have ha : 'a'.val.toNat = 97 := rfl
    have hz : 'z'.val.toNat = 122 := rfl
    have hdiff : ('a'.val - 'A'.val).toNat = 32 := rfl
    simp only [ge_iff_le, UInt32.le_iff_toNat_le] at h1 h2
    have hval : d.val.toNat = c.val.toNat + 32 := by
      rw [← h]
      simp only [UInt32.toNat_add, hdiff]
      omega
    have hlower : d.isLower = true := by
      show (decide (d.val ≥ 'a'.val) && decide (d.val ≤ 'z'.val)) = true
      simp only [Bool.and_eq_true, decide_eq_true_eq, ge_iff_le, UInt32.le_iff_toNat_le]
      omega
    have halpha : d.isAlpha = true := by
      show (d.isUpper || d.isLower) = true
      rw [hlower, Bool.or_true]
    rw [hd] at halpha
    cases halpha
  · exact h

theorem Text.toLower_toLower (c : Char) : c.toLower.toLower = c.toLower := by
  unfold Char.toLower
  split <;> rename_i h
  · obtain ⟨h1, h2⟩ := h
    have hA : 'A'.val.toNat = 65 := rfl
    have hZ : 'Z'.val.toNat = 90 := rfl
    have ha : 'a'.val.toNat = 97 := rfl
    have hdiff : ('a'.val - 'A'.val).toNat = 32 := rfl
    simp only [ge_iff_le, UInt32.le_iff_toNat_le] at h1 h2
    rw [dif_neg]
    simp only [ge_iff_le, UInt32.le_iff_toNat_le, UInt32.toNat_add, hdiff]
    omega
  · rfl

namespace Piece

/-! ## Content taken as it stands -/

theorem endsVerbatim_of_ne (name : Text) {c d : Char} (h : ¬ (c = '<' ∧ d = '/')) (t : Text) :
    endsVerbatim name (c :: d :: t) = false := by
  cases hends : endsVerbatim name (c :: d :: t) with
  | false => rfl
  | true =>
    simp only [endsVerbatim, Bool.and_eq_true, beq_iff_eq, List.take_succ_cons, lower,
      List.map_cons, List.cons.injEq] at hends
    obtain ⟨⟨hc, hd, -⟩, -⟩ := hends
    exact absurd ⟨eq_of_toLower (by decide) hc, eq_of_toLower (by decide) hd⟩ h

theorem endsVerbatim_endTagText {name : Text} (h : lower name = name) (r : Text) :
    endsVerbatim name (Lexeme.endTagText name ++ r) = true := by
  have htext : Lexeme.endTagText name ++ r = '<' :: '/' :: (name ++ '>' :: r) := by
    simp [Lexeme.endTagText]
  have hlower : lower ('<' :: '/' :: name) = '<' :: '/' :: name := by
    rw [lower, List.map_cons, List.map_cons, ← lower, h]
    rfl
  rw [htext]
  simp [endsVerbatim, hlower]

/-- Content without `</` is cut at the end tag that is written behind it. -/
theorem cutVerbatim_append_endTagText {name : Text} (hlow : lower name = name)
    (hname : ∀ c ∈ name, c ≠ '>') {body : Text} (h : Endless body) (r : Text) :
    cutVerbatim name (body ++ (Lexeme.endTagText name ++ r)) =
      ⟨body, some (Lexeme.endTagText name), r⟩ := by
  induction body with
  | nil =>
    have hends := endsVerbatim_endTagText hlow r
    have htext : Lexeme.endTagText name ++ r = '<' :: '/' :: name ++ '>' :: r := by
      simp [Lexeme.endTagText]
    have hcut : cutAfterGreater ('<' :: '/' :: name ++ '>' :: r) =
        some (Lexeme.endTagText name, r) := by
      apply cutAfterGreater_append
      exact List.forall_mem_cons.2 ⟨by decide, List.forall_mem_cons.2 ⟨by decide, hname⟩⟩
    rw [htext] at hends
    rw [List.nil_append, htext]
    simp only [List.cons_append] at hends hcut ⊢
    rw [cutVerbatim, if_pos hends, hcut]
  | cons c body ih =>
    obtain ⟨hc, hbody⟩ := List.isChain_cons.1 h
    have hends : endsVerbatim name (c :: (body ++ (Lexeme.endTagText name ++ r))) = false := by
      cases body with
      | nil => exact endsVerbatim_of_ne name (by simp) _
      | cons d body => exact endsVerbatim_of_ne name (hc d rfl) _
    rw [List.cons_append, cutVerbatim, hends, if_neg Bool.false_ne_true, ih hbody]

/-! ## The next piece -/

/-- The name, in small letters, of an element with content that is lexed. -/
structure HasContent (name : Text) : Prop where
  small : lower name = name
  not_void : name ∉ voidElements
  not_verbatim : name ∉ verbatimElements
  plain : ∀ c ∈ name, isBlank c = false ∧ c ≠ '/' ∧ c ≠ '>'

variable (start : Nat)

theorem all_nil : all start [] = [] := by rw [all]

theorem all_text {s r : Text} (hs : s ≠ []) (hless : ∀ c ∈ s, c ≠ '<')
    (hr : r = [] ∨ ∃ t, r = '<' :: t) :
    all start (s ++ r) = .text ⟨start, s⟩ :: all (start + s.utf8Size) r := by
  obtain ⟨c, s, rfl⟩ := List.exists_cons_of_ne_nil hs
  obtain ⟨hc, hs⟩ := List.forall_mem_cons.1 hless
  have hs' : ∀ d ∈ s, (d != '<') = true := fun d hd => by simpa using hs d hd
  have hr' : r.takeWhile (· != '<') = [] ∧ r.dropWhile (· != '<') = r := by
    rcases hr with rfl | ⟨t, rfl⟩ <;> simp
  have hnext : Lexeme.next c (s ++ r) = ⟨c :: s, .text, r⟩ := by
    rw [Lexeme.next, if_neg hc, List.takeWhile_append_of_pos hs', List.dropWhile_append_of_pos hs',
      hr'.1, hr'.2, List.append_nil]
  rw [List.cons_append, all, hnext]
  rfl

theorem all_endTag {letter : Char} {name : Text} (hl : Lexeme.isLetter letter = true)
    (hname : ∀ c ∈ letter :: name, isBlank c = false ∧ c ≠ '/' ∧ c ≠ '>') (r : Text) :
    all start (Lexeme.endTagText (letter :: name) ++ r) =
      .closing (lower (letter :: name)) ⟨start, Lexeme.endTagText (letter :: name)⟩ ::
        all (start + (Lexeme.endTagText (letter :: name)).utf8Size) r := by
  have hcut : cutAfterGreater (name ++ '>' :: r) = some (name ++ ['>'], r) :=
    cutAfterGreater_append (fun c hc => (hname c (List.mem_cons_of_mem _ hc)).2.2) r
  have hall : ∀ c ∈ letter :: name, (!isBlank c && c != '/') = true := by
    intro c hc
    obtain ⟨h1, h2, -⟩ := hname c hc
    simp [h1, h2]
  have hend : Lexeme.endTagName (letter :: name) = lower (letter :: name) := by
    rw [Lexeme.endTagName, List.takeWhile_eq_self_iff.2 hall]
  have hnext : Lexeme.next '<' ('/' :: letter :: (name ++ '>' :: r)) =
      ⟨Lexeme.endTagText (letter :: name), .endTag (lower (letter :: name)), r⟩ := by
    rw [Lexeme.next, if_pos rfl, Lexeme.markup, if_pos hl, Lexeme.toGreater, hcut]
    simp [hend, Lexeme.endTagText]
  have htext : Lexeme.endTagText (letter :: name) ++ r =
      '<' :: '/' :: letter :: (name ++ '>' :: r) := by simp [Lexeme.endTagText]
  rw [htext, all, hnext]
  rfl

section

variable {c : Char} {rest t r : Text} {tag : StartTag}

theorem all_leaf (h : Lexeme.next c rest = ⟨t, .startTag tag, r⟩)
    (hleaf : tag.name ∈ voidElements ∨ tag.selfClosing = true) :
    all start (c :: rest) = .leaf tag ⟨start, t⟩ :: all (start + t.utf8Size) r := by
  rw [all, h]
  exact if_pos hleaf

theorem all_opening (h : Lexeme.next c rest = ⟨t, .startTag tag, r⟩)
    (hleaf : ¬ (tag.name ∈ voidElements ∨ tag.selfClosing = true))
    (hverbatim : tag.name ∉ verbatimElements) :
    all start (c :: rest) = .opening tag ⟨start, t⟩ :: all (start + t.utf8Size) r := by
  rw [all, h]
  exact (if_neg hleaf).trans (if_neg hverbatim)

theorem all_verbatim {body after : Text}
    (h : Lexeme.next c rest =
      ⟨t, .startTag tag, body ++ (Lexeme.endTagText tag.name ++ after)⟩)
    (hleaf : ¬ (tag.name ∈ voidElements ∨ tag.selfClosing = true))
    (hverbatim : tag.name ∈ verbatimElements) (hbody : Endless body) :
    all start (c :: rest) =
      .verbatim tag ⟨start, t⟩ ⟨start + t.utf8Size, body⟩
          (some ⟨start + t.utf8Size + body.utf8Size, Lexeme.endTagText tag.name⟩) ::
        all (start + t.utf8Size + body.utf8Size + (Lexeme.endTagText tag.name).utf8Size) after := by
  have hnames : ∀ name ∈ verbatimElements,
      lower name = name ∧ name.all (fun d => d ≠ '>') = true := by decide
  obtain ⟨hlow, hname⟩ := hnames _ hverbatim
  rw [List.all_iff_forall_prop] at hname
  have hcut := cutVerbatim_append_endTagText hlow hname hbody after
  rw [all, h]
  refine (if_neg hleaf).trans ((if_pos hverbatim).trans ?_)
  rw [hcut]
  rfl

end

/-! ## Written elements -/

section

variable {letter : Char} {name : Text} {l : List (Char × Attribute)}

/-- The start tag of an element that can have content is one piece, whatever stands behind it. -/
theorem all_startTag (h : StartTag.Writable letter name l) (hname : HasContent (letter :: name))
    (r : Text) :
    all start (StartTag.written (letter :: name) l false ++ r) =
      .opening ⟨letter :: name, l.map (·.2), false⟩
          ⟨start, StartTag.written (letter :: name) l false⟩ ::
        all (start + (StartTag.written (letter :: name) l false).utf8Size) r := by
  have hnext := Lexeme.next_written h false r
  rw [hname.small] at hnext
  have hsource : StartTag.written (letter :: name) l false ++ r =
      '<' :: (letter :: (name ++ (Attribute.writtenAll l ++ if false then " /".toList else [])) ++
        '>' :: r) := by
    simp [StartTag.written]
  rw [hsource, all_opening start hnext (by simpa using hname.not_void) hname.not_verbatim]

/-- The pieces of an element that has nothing but text in it. -/
def textElement (tag : StartTag) (start : Nat) (opened s closed : Text) : List Piece :=
  [.opening tag ⟨start, opened⟩, .text ⟨start + opened.utf8Size, s⟩,
    .closing tag.name ⟨start + opened.utf8Size + s.utf8Size, closed⟩]

/-- An element that has nothing but text in it is three pieces, whatever stands behind it. -/
theorem all_textElement (h : StartTag.Writable letter name l) (hname : HasContent (letter :: name))
    {s : Text} (hs : s ≠ []) (hless : ∀ c ∈ s, c ≠ '<') (r : Text) :
    all start (StartTag.written (letter :: name) l false ++
        (s ++ Lexeme.endTagText (letter :: name)) ++ r) =
      textElement ⟨letter :: name, l.map (·.2), false⟩ start
          (StartTag.written (letter :: name) l false) s (Lexeme.endTagText (letter :: name)) ++
        all (start + (StartTag.written (letter :: name) l false ++
          (s ++ Lexeme.endTagText (letter :: name))).utf8Size) r := by
  have htext (n : Nat) := all_text n hs hless
    (r := Lexeme.endTagText (letter :: name) ++ r) (.inr ⟨_, rfl⟩)
  rw [List.append_assoc, all_startTag start h hname, List.append_assoc, htext,
    all_endTag _ h.letter hname.plain, hname.small, utf8Size_append, utf8Size_append,
    ← Nat.add_assoc, ← Nat.add_assoc]
  rfl

/-- An element that closes itself is one piece, whatever stands behind it. -/
theorem all_leafElement (h : StartTag.Writable letter name l) (r : Text) :
    all start (StartTag.written (letter :: name) l true ++ r) =
      .leaf ⟨lower (letter :: name), l.map (·.2), true⟩
          ⟨start, StartTag.written (letter :: name) l true⟩ ::
        all (start + (StartTag.written (letter :: name) l true).utf8Size) r := by
  have hpieces := all_leaf start (Lexeme.next_written h true r) (.inr rfl)
  have hsource : StartTag.written (letter :: name) l true ++ r = '<' :: (letter ::
      (name ++ (Attribute.writtenAll l ++ if true then " /".toList else [])) ++ '>' :: r) := by
    simp [StartTag.written]
  rw [hsource, hpieces]

end

end Piece

namespace Forest

/-! ## The forest of written elements -/

theorem grow_nil (opened : List Text) : (grow opened []).forest = nil := by rw [grow]

theorem grow_verbatim (opened : List Text) (tag : StartTag) (opening content : Slice)
    (closing : Option Slice) (rest : List Piece) :
    (grow opened (.verbatim tag opening content closing :: rest)).forest =
      .element tag opening (verbatim content) closing (grow opened rest).forest := by
  rw [grow]
  rfl

theorem write_verbatim (content : Slice) (replaced : Replacements)
    (h : ∀ id, replaced id = none) (n : NodeId) :
    (verbatim content).write .plain replaced n = decode content.text := by
  unfold verbatim
  split
  · rename_i hempty
    rw [hempty, decode]
    rfl
  · simp [write, h, View.plain]

variable {letter : Char} {name : Text} {l : List (Char × Attribute)}

/-- Text in an element, and the end tag of the element. -/
theorem grow_text_closing (opened : List Text) (name : Text) (s closing : Slice)
    (rest : List Piece) :
    grow (name :: opened) (.text s :: .closing name closing :: rest) =
      ⟨text s nil, .endTag name closing rest, by simp only [Ending.rest, List.length_cons]; omega⟩ := by
  have hend : grow (name :: opened) (.closing name closing :: rest) =
      ⟨nil, .endTag name closing rest, by simp [Ending.rest]⟩ := by
    rw [grow, if_pos (by simp)]
  rw [grow, hend]
  rfl

theorem grow_textElement (tag : StartTag) (opening s closing : Slice) :
    (grow [] [.opening tag opening, .text s, .closing tag.name closing]).forest =
      .element tag opening (.text s .nil) (some closing) .nil := by
  rw [grow, grow_text_closing]
  simp only
  rw [if_pos trivial]
  exact congrArg (element tag opening (text s nil) (some closing)) (grow_nil [])

/-- An element that has nothing but text in it. -/
theorem parse_textElement (h : StartTag.Writable letter name l)
    (hname : Piece.HasContent (letter :: name)) {s : Text} (hs : s ≠ [])
    (hless : ∀ c ∈ s, c ≠ '<') :
    parse (StartTag.written (letter :: name) l false ++
        (s ++ Lexeme.endTagText (letter :: name))) =
      .element ⟨letter :: name, l.map (·.2), false⟩
        ⟨0, StartTag.written (letter :: name) l false⟩
        (.text ⟨0 + (StartTag.written (letter :: name) l false).utf8Size, s⟩ .nil)
        (some ⟨0 + (StartTag.written (letter :: name) l false).utf8Size + s.utf8Size,
          Lexeme.endTagText (letter :: name)⟩) .nil := by
  have hpieces := Piece.all_textElement 0 h hname hs hless []
  rw [List.append_nil, Piece.all_nil] at hpieces
  rw [parse, hpieces]
  exact grow_textElement ⟨letter :: name, l.map (·.2), false⟩ _ _ _

/-- An element that closes itself. -/
theorem parse_leafElement (h : StartTag.Writable letter name l) :
    parse (StartTag.written (letter :: name) l true) =
      .element ⟨lower (letter :: name), l.map (·.2), true⟩
        ⟨0, StartTag.written (letter :: name) l true⟩ .nil none .nil := by
  have hpieces := Piece.all_leafElement 0 h []
  rw [List.append_nil, Piece.all_nil] at hpieces
  rw [parse, hpieces, grow, grow]
  rfl

end Forest

end RichContent
