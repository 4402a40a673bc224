/-
What a stage puts into the content cannot be broken out of.

Whatever the text of a node, its attributes and the URLs are, the markup that
is built from them is one element with the attributes that were meant, and a
reader sees just the text of the fragment (`expansions_isElement`).
-/
import RichContent.Editor.Compile
import RichContent.Proofs.Markup.Piece

namespace RichContent

open Text

/-- The markup of a fragment is one element, with these attributes and with nothing but text in it,
and what a reader sees of it is the text of the fragment. -/
structure Fragment.IsElement (f : Fragment) (name : Text) (attributes : List (Text × Text)) :
    Prop where
  forest : ∃ tag opening children closing,
    Forest.parse f.html = .element tag opening children closing .nil ∧ tag.name = name ∧
      tag.attributes = attributes.map (fun (name, value) => ⟨name, some value⟩) ∧
      (children = .nil ∨ ∃ s, children = .text s .nil)
  text : (Document.parse f.html).text = f.text

namespace Fragment

variable {f : Fragment} {letter : Char} {name : Text} {l : List (Text × Text)}

theorem isElement_of_text (h : StartTag.Writable letter name (Attribute.quoted l))
    (hname : Piece.HasContent (letter :: name)) {s : Text} (hs : s ≠ []) (hless : ∀ c ∈ s, c ≠ '<')
    (hhtml : f.html = StartTag.written (letter :: name) (Attribute.quoted l) false ++
      (s ++ Lexeme.endTagText (letter :: name)))
    (htext : f.text = decode s) : f.IsElement (letter :: name) l := by
  have hforest := Forest.parse_textElement h hname hs hless
  rw [← hhtml] at hforest
  refine ⟨⟨_, _, _, _, hforest, rfl, ?_, .inr ⟨_, rfl⟩⟩, ?_⟩
  · rw [Attribute.quoted, List.map_map]
    rfl
  · have hparse : (Document.parse f.html).forest = Forest.parse f.html := rfl
    rw [Document.text, Document.write_eq, hparse, hforest, htext]
    simp [Forest.write, Document.replacement?, Document.parse, View.plain, View.tag?]

theorem isElement_of_leaf (h : StartTag.Writable letter name (Attribute.quoted l))
    (hlow : lower (letter :: name) = letter :: name)
    (hhtml : f.html = StartTag.written (letter :: name) (Attribute.quoted l) true)
    (htext : f.text = []) : f.IsElement (letter :: name) l := by
  have hforest := Forest.parse_leafElement h
  rw [← hhtml, hlow] at hforest
  refine ⟨⟨_, _, _, _, hforest, rfl, ?_, .inl rfl⟩, ?_⟩
  · rw [Attribute.quoted, List.map_map]
    rfl
  · have hparse : (Document.parse f.html).forest = Forest.parse f.html := rfl
    rw [Document.text, Document.write_eq, hparse, hforest, htext]
    simp [Forest.write, Document.replacement?, Document.parse, View.plain, View.tag?]

end Fragment

namespace Compile

theorem hashtag_html (m : Markers) (e : Entity) :
    (hashtag m e).html = StartTag.written "a".toList (Attribute.quoted
        [("href".toList, '#' :: dropMark '#' e.text), ("class".toList, m.tagClass)]) false ++
      ('#' :: escape (dropMark '#' e.text) ++ Lexeme.endTagText "a".toList) := by
  have hmark : escapeChar '#' = ['#'] := by decide
  unfold hashtag
  simp [StartTag.written, Attribute.quoted, Attribute.writtenAll, Attribute.written,
    Lexeme.endTagText, hmark]

theorem mention_html (m : Markers) (e : Entity) :
    (mention m e).html = StartTag.written "span".toList (Attribute.quoted
        [("role".toList, "button".toList), ("class".toList, m.mentionClass),
        ("data-toggle".toList, "xeUserMenu".toList),
        ("data-user-id".toList, (e.value? m.mentionIdentifier).getD [])]) false ++
      ('@' :: escape (dropMark '@' e.text) ++ Lexeme.endTagText "span".toList) := by
  have hrole : escape "button".toList = "button".toList := by decide
  have htoggle : escape "xeUserMenu".toList = "xeUserMenu".toList := by decide
  unfold mention
  simp only [StartTag.written, Attribute.quoted, Attribute.writtenAll, Attribute.written,
    Lexeme.endTagText, List.map_cons, List.flatMap_cons, Option.elim_some, hrole, htoggle]
  simp

theorem image_html (m : Markers) (id url : Text) :
    (image m id url).html = StartTag.written "img".toList (Attribute.quoted [("src".toList, url),
        ("class".toList, m.imageClass), ("data-id".toList, id)]) true := by
  unfold image
  simp [StartTag.written, Attribute.quoted, Attribute.writtenAll, Attribute.written]

/-- `w` is the text without one mark in front, if there is one. -/
def WithoutMark (mark : Char) (t w : Text) : Prop :=
  t = mark :: w ∨ t.head? ≠ some mark ∧ w = t

theorem withoutMark_dropMark (mark : Char) (t : Text) : WithoutMark mark t (dropMark mark t) := by
  cases t with
  | nil => exact .inr ⟨by simp, rfl⟩
  | cons c rest =>
    rw [dropMark]
    split
    · rename_i hc
      exact .inl (by rw [hc])
    · rename_i hc
      exact .inr ⟨fun h => hc (Option.some.inj h), rfl⟩

section

variable {mark : Char} (w : Text)

theorem ne_less_of_mem_marked (h : mark ≠ '<') : ∀ c ∈ mark :: escape w, c ≠ '<' :=
  List.forall_mem_cons.2 ⟨h, fun _ hc => (ne_of_mem_escape hc).1⟩

theorem decode_marked (h : mark ≠ '&') : mark :: w = decode (mark :: escape w) := by
  rw [decode_cons_of_ne h, decode_escape]

end

variable (m : Markers)

theorem hashtag_isElement (e : Entity) : (hashtag m e).IsElement "a".toList
    [("href".toList, '#' :: dropMark '#' e.text), ("class".toList, m.tagClass)] := by
  have hnames : ∀ name ∈ ["href".toList, "class".toList], Attribute.WritableName name := by
    decide
  have hdistinct : ["href".toList, "class".toList].Nodup := by decide
  have hname : Piece.HasContent ('a' :: []) :=
    ⟨by decide, by decide, by decide, List.all_iff_forall_prop.1 (by decide)⟩
  exact Fragment.isElement_of_text
    (StartTag.writable_quoted (by decide) (by simp) hnames hdistinct) hname
    (List.cons_ne_nil _ _) (ne_less_of_mem_marked _ (by decide)) (hashtag_html m e)
    (decode_marked _ (by decide))

theorem mention_isElement (e : Entity) : (mention m e).IsElement "span".toList
    [("role".toList, "button".toList), ("class".toList, m.mentionClass),
      ("data-toggle".toList, "xeUserMenu".toList),
      ("data-user-id".toList, (e.value? m.mentionIdentifier).getD [])] := by
  have hnames : ∀ name ∈ ["role".toList, "class".toList, "data-toggle".toList,
      "data-user-id".toList], Attribute.WritableName name := by decide
  have hdistinct : ["role".toList, "class".toList, "data-toggle".toList,
      "data-user-id".toList].Nodup := by decide
  have hname : Piece.HasContent ('s' :: "pan".toList) :=
    ⟨by decide, by decide, by decide, List.all_iff_forall_prop.1 (by decide)⟩
  exact Fragment.isElement_of_text
    (StartTag.writable_quoted (by decide) (List.all_iff_forall_prop.1 (by decide)) hnames
      hdistinct) hname
    (List.cons_ne_nil _ _) (ne_less_of_mem_marked _ (by decide)) (mention_html m e)
    (decode_marked _ (by decide))

theorem image_isElement (id url : Text) : (image m id url).IsElement "img".toList
    [("src".toList, url), ("class".toList, m.imageClass), ("data-id".toList, id)] := by
  have hnames : ∀ name ∈ ["src".toList, "class".toList, "data-id".toList],
      Attribute.WritableName name := by decide
  have hdistinct : ["src".toList, "class".toList, "data-id".toList].Nodup := by decide
  have hlow : lower ('i' :: "mg".toList) = 'i' :: "mg".toList := by decide
  exact Fragment.isElement_of_leaf
    (StartTag.writable_quoted (by decide) (List.all_iff_forall_prop.1 (by decide)) hnames
      hdistinct) hlow
    (image_html m id url) rfl

/-- **Whatever the names of the markers, the text of a node, its identifier and a URL are, what is
built from them is one element with the attributes that were meant.** A hashtag has the text without
one `#` in front, a mention the text without one `@`. -/
theorem expansions_isElement (e : Entity) (id url : Text) :
    ∃ word name, WithoutMark '#' e.text word ∧ WithoutMark '@' e.text name ∧
      (hashtag m e).IsElement "a".toList
        [("href".toList, '#' :: word), ("class".toList, m.tagClass)] ∧
      (hashtag m e).text = '#' :: word ∧
      (mention m e).IsElement "span".toList
        [("role".toList, "button".toList), ("class".toList, m.mentionClass),
          ("data-toggle".toList, "xeUserMenu".toList),
          ("data-user-id".toList, (e.value? m.mentionIdentifier).getD [])] ∧
      (mention m e).text = '@' :: name ∧
      (image m id url).IsElement "img".toList
        [("src".toList, url), ("class".toList, m.imageClass), ("data-id".toList, id)] ∧
      (image m id url).text = [] :=
  ⟨dropMark '#' e.text, dropMark '@' e.text, withoutMark_dropMark '#' e.text,
    withoutMark_dropMark '@' e.text, hashtag_isElement m e, rfl, mention_isElement m e, rfl,
    image_isElement m id url, rfl⟩

/-- Of two marks one is left out, and a mark that is not there is put in front. -/
theorem expansions_isElement_marked :
    let m : Markers := {}
    let tag : Entity := ⟨[], [], "##<".toList, []⟩
    let user : Entity := ⟨[], [], "@b".toList, [("data-id".toList, some "\"7".toList)]⟩
    let bare : Entity := ⟨[], [], "b".toList, []⟩
    (hashtag m tag).IsElement "a".toList
        [("href".toList, "##<".toList), ("class".toList, "__xe_hashtag".toList)] ∧
      (hashtag m tag).html =
        "<a href=\"##&lt;\" class=\"__xe_hashtag\">##&lt;</a>".toList ∧
      (mention m user).IsElement "span".toList
        [("role".toList, "button".toList), ("class".toList, "__xe_mention".toList),
          ("data-toggle".toList, "xeUserMenu".toList), ("data-user-id".toList, "\"7".toList)] ∧
      (mention m user).text = "@b".toList ∧ (mention m bare).text = "@b".toList := by
  intro m tag user bare
  obtain ⟨word, -, hword, -, htag, -⟩ := expansions_isElement m tag [] []
  obtain ⟨-, name, -, hname, -, -, huser, htext, -⟩ := expansions_isElement m user [] []
  obtain ⟨-, own, -, hown, -, -, -, hbare, -⟩ := expansions_isElement m bare [] []
  have hmarked {mark : Char} {t w : Text} (h : WithoutMark mark (mark :: t) w) : w = t := by
    rcases h with h | ⟨h, -⟩
    · exact (List.cons.inj h).2.symm
    · exact absurd rfl h
  obtain rfl : word = "#<".toList := hmarked hword
  obtain rfl : name = "b".toList := hmarked hname
  obtain rfl : own = "b".toList := by
    rcases hown with h | ⟨-, h⟩
    · exact absurd (List.cons.inj h).1 (by decide)
    · exact h
  exact ⟨htag, by decide, huser, htext, hbare⟩

end Compile

end RichContent
