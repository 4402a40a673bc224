/-
What a compile with the default markers has written, parsed again.

The elements that its markers pick out there are the ones that it has put in
itself: a hashtag is an `a` with nothing but its text in it, an image an `img`,
and mentions are marked no more (`SettledForest`).
-/
import RichContent.Proofs.Editor.Fragments
import RichContent.Proofs.Editor.Marks
import RichContent.Proofs.Markup.Stretch

namespace RichContent

open Text

namespace Compile

/-! ## The tags that are put in -/

/-- The tag of the link that a hashtag becomes. -/
def hashtagTag (word : Text) : StartTag :=
  ⟨"a".toList, [⟨"href".toList, some ('#' :: word)⟩,
    ⟨"class".toList, some "__xe_hashtag".toList⟩], false⟩

/-- The tag of the button that a mention becomes. -/
def mentionTag (user : Text) : StartTag :=
  ⟨"span".toList, [⟨"role".toList, some "button".toList⟩,
    ⟨"class".toList, some "__xe_mention".toList⟩,
    ⟨"data-toggle".toList, some "xeUserMenu".toList⟩, ⟨"data-user-id".toList, some user⟩], false⟩

/-- The tag of the picture that an image becomes. -/
def imageTag (id url : Text) : StartTag :=
  ⟨"img".toList, [⟨"src".toList, some url⟩, ⟨"class".toList, some "__xe_image".toList⟩,
    ⟨"data-id".toList, some id⟩], true⟩

theorem hashtagTag_holds (word : Text) :
    mentionMark.holds (hashtagTag word) = false ∧ imageMark.holds (hashtagTag word) = false :=
  ⟨rfl, rfl⟩

theorem mentionTag_unmarked (user : Text) : Unmarked (mentionTag user) :=
  ⟨rfl, rfl, rfl⟩

theorem imageTag_holds (id url : Text) :
    hashtagMark.holds (imageTag id url) = false ∧ mentionMark.holds (imageTag id url) = false ∧
      imageMark.holds (imageTag id url) = true :=
  ⟨rfl, rfl, rfl⟩

theorem value?_imageTag (id url : Text) :
    (imageTag id url).value? "data-id".toList = some id := rfl

/-! ## What the stages put in -/

/-- What the stages of a compile put in, given the answers of the resolver. -/
inductive Expansion (answers : List ResolvedImage) : Fragment → Prop
  | hashtag (e : Entity) : Expansion answers (hashtag {} e)
  | mention (e : Entity) : Expansion answers (mention {} e)
  | image {id url : Text} : urlOf? answers id = some url → Expansion answers (image {} id url)

theorem writable_hashtag (word : Text) : StartTag.Writable 'a' [] (Attribute.quoted
    [("href".toList, '#' :: word), ("class".toList, "__xe_hashtag".toList)]) := by
  have hnames : ∀ name ∈ ["href".toList, "class".toList], Attribute.WritableName name := by
    decide
  have hdistinct : ["href".toList, "class".toList].Nodup := by decide
  exact StartTag.writable_quoted (by decide) (by simp) hnames hdistinct

theorem writable_mention (user : Text) : StartTag.Writable 's' "pan".toList (Attribute.quoted
    [("role".toList, "button".toList), ("class".toList, "__xe_mention".toList),
      ("data-toggle".toList, "xeUserMenu".toList), ("data-user-id".toList, user)]) := by
  have hnames : ∀ name ∈ ["role".toList, "class".toList, "data-toggle".toList,
      "data-user-id".toList], Attribute.WritableName name := by decide
  have hdistinct : ["role".toList, "class".toList, "data-toggle".toList,
      "data-user-id".toList].Nodup := by decide
  exact StartTag.writable_quoted (by decide) (List.all_iff_forall_prop.1 (by decide)) hnames
    hdistinct

theorem writable_image (id url : Text) : StartTag.Writable 'i' "mg".toList (Attribute.quoted
    [("src".toList, url), ("class".toList, "__xe_image".toList), ("data-id".toList, id)]) := by
  have hnames : ∀ name ∈ ["src".toList, "class".toList, "data-id".toList],
      Attribute.WritableName name := by decide
  have hdistinct : ["src".toList, "class".toList, "data-id".toList].Nodup := by decide
  exact StartTag.writable_quoted (by decide) (List.all_iff_forall_prop.1 (by decide)) hnames
    hdistinct

theorem hasContent_a : Piece.HasContent ('a' :: []) :=
  ⟨by decide, by decide, by decide, List.all_iff_forall_prop.1 (by decide)⟩

theorem hasContent_span : Piece.HasContent ('s' :: "pan".toList) :=
  ⟨by decide, by decide, by decide, List.all_iff_forall_prop.1 (by decide)⟩

/-- A mark and escaped text have no angle brackets. -/
theorem ne_of_mem_marked {mark : Char} (h : mark ≠ '<' ∧ mark ≠ '>') (w : Text) :
    ∀ c ∈ mark :: escape w, c ≠ '<' ∧ c ≠ '>' := by
  refine List.forall_mem_cons.2 ⟨h, fun c hc => ?_⟩
  obtain ⟨hless, hgreater, -⟩ := ne_of_mem_escape hc
  exact ⟨hless, hgreater⟩

/-- The start tag that is written for a hashtag. -/
def hashtagOpened (word : Text) : Text :=
  StartTag.written ('a' :: []) (Attribute.quoted
    [("href".toList, '#' :: word), ("class".toList, "__xe_hashtag".toList)]) false

/-- The start tag that is written for a mention. -/
def mentionOpened (user : Text) : Text :=
  StartTag.written ('s' :: "pan".toList) (Attribute.quoted
    [("role".toList, "button".toList), ("class".toList, "__xe_mention".toList),
      ("data-toggle".toList, "xeUserMenu".toList), ("data-user-id".toList, user)]) false

theorem hashtag_html_eq (e : Entity) : (hashtag {} e).html =
    hashtagOpened (dropMark '#' e.text) ++
      ('#' :: escape (dropMark '#' e.text) ++ Lexeme.endTagText ('a' :: [])) :=
  hashtag_html {} e

theorem mention_html_eq (e : Entity) : (mention {} e).html =
    mentionOpened ((e.value? "data-id".toList).getD []) ++
      ('@' :: escape (dropMark '@' e.text) ++ Lexeme.endTagText ('s' :: "pan".toList)) :=
  mention_html {} e

theorem image_html_eq (id url : Text) : (image {} id url).html =
    StartTag.written ('i' :: "mg".toList) (Attribute.quoted [("src".toList, url),
      ("class".toList, "__xe_image".toList), ("data-id".toList, id)]) true :=
  image_html {} id url

section

variable (start : Nat) (e : Entity) (id url r : Text)

theorem all_hashtag : Piece.all start ((hashtag {} e).html ++ r) =
    Piece.textElement (hashtagTag (dropMark '#' e.text)) start
        (hashtagOpened (dropMark '#' e.text)) ('#' :: escape (dropMark '#' e.text))
        (Lexeme.endTagText ('a' :: [])) ++
      Piece.all (start + (hashtag {} e).html.utf8Size) r := by
  have hplain := @ne_of_mem_marked '#' (by decide) (dropMark '#' e.text)
  rw [hashtag_html_eq]
  exact Piece.all_textElement start (writable_hashtag (dropMark '#' e.text)) hasContent_a
    (List.cons_ne_nil _ _) (fun c hc => (hplain c hc).1) r

theorem all_mention : Piece.all start ((mention {} e).html ++ r) =
    Piece.textElement (mentionTag ((e.value? "data-id".toList).getD [])) start
        (mentionOpened ((e.value? "data-id".toList).getD [])) ('@' :: escape (dropMark '@' e.text))
        (Lexeme.endTagText ('s' :: "pan".toList)) ++
      Piece.all (start + (mention {} e).html.utf8Size) r := by
  have hplain := @ne_of_mem_marked '@' (by decide) (dropMark '@' e.text)
  rw [mention_html_eq]
  exact Piece.all_textElement start (writable_mention ((e.value? "data-id".toList).getD []))
    hasContent_span (List.cons_ne_nil _ _) (fun c hc => (hplain c hc).1) r

theorem all_image : Piece.all start ((image {} id url).html ++ r) =
    [.leaf (imageTag id url) ⟨start, (image {} id url).html⟩] ++
      Piece.all (start + (image {} id url).html.utf8Size) r := by
  rw [image_html_eq]
  exact Piece.all_leafElement start (writable_image id url) r

end

theorem Expansion.fits {answers : List ResolvedImage} {f : Fragment} (h : Expansion answers f) :
    Fits f.html := by
  cases h with
  | hashtag e =>
    have hplain := @ne_of_mem_marked '#' (by decide) (dropMark '#' e.text)
    rw [hashtag_html_eq]
    exact StartTag.fits_textElement (writable_hashtag (dropMark '#' e.text)) (by simp) hasContent_a
      (by decide) (fun c hc => (hplain c hc).2)
  | mention e =>
    have hplain := @ne_of_mem_marked '@' (by decide) (dropMark '@' e.text)
    rw [mention_html_eq]
    exact StartTag.fits_textElement (writable_mention ((e.value? "data-id".toList).getD []))
      (by simp) hasContent_span (by decide) (fun c hc => (hplain c hc).2)
  | @image id url hurl =>
    rw [image_html_eq]
    exact StartTag.fits_leafElement (writable_image id url) (by simp)

theorem hashtag_pieces (e : Entity) : (hashtag {} e).Closed ∧ ∀ start,
    Piece.all start (hashtag {} e).html = Piece.textElement (hashtagTag (dropMark '#' e.text)) start
      (hashtagOpened (dropMark '#' e.text)) ('#' :: escape (dropMark '#' e.text))
      (Lexeme.endTagText ('a' :: [])) :=
  Fragment.closed_of_all fun start r => all_hashtag start e r

theorem mention_pieces (e : Entity) : (mention {} e).Closed ∧ ∀ start,
    Piece.all start (mention {} e).html =
      Piece.textElement (mentionTag ((e.value? "data-id".toList).getD [])) start
        (mentionOpened ((e.value? "data-id".toList).getD [])) ('@' :: escape (dropMark '@' e.text))
        (Lexeme.endTagText ('s' :: "pan".toList)) :=
  Fragment.closed_of_all fun start r => all_mention start e r

theorem image_pieces (id url : Text) : (image {} id url).Closed ∧ ∀ start,
    Piece.all start (image {} id url).html =
      [.leaf (imageTag id url) ⟨start, (image {} id url).html⟩] :=
  Fragment.closed_of_all fun start r => all_image start id url r

theorem Expansion.closed {answers : List ResolvedImage} {f : Fragment} (h : Expansion answers f) :
    f.Closed := by
  cases h with
  | hashtag e => exact (hashtag_pieces e).1
  | mention e => exact (mention_pieces e).1
  | image => exact (image_pieces _ _).1

/-! ## What has been written, in pieces -/

/-- A link as it is written for a hashtag: its tag, and the texts of the tag, of what is in it,
and of its end tag. -/
structure IsHashtag (tag : StartTag) (opened s closed : Text) : Prop where
  notMention : mentionMark.holds tag = false
  notImage : imageMark.holds tag = false
  written : ∃ e, decode s = '#' :: dropMark '#' e.text ∧
    opened ++ (s ++ closed) = (hashtag {} e).html

/-- A picture as it is written for an image, given the answers of the resolver. -/
def IsImage (answers : List ResolvedImage) (tag : StartTag) (opened : Text) : Prop :=
  ∃ id url, tag = imageTag id url ∧ urlOf? answers id = some url ∧
    opened = (image {} id url).html

/-- A piece that is unmarked, or the beginning of what was written for a hashtag or an image. -/
inductive SettledAt (answers : List ResolvedImage) : Piece → List Piece → Prop
  | unmarked {p : Piece} {rest : List Piece} : (∀ tag, p.tag? = some tag → Unmarked tag) →
    SettledAt answers p rest
  | hashtag {tag : StartTag} {s t c : Slice} {rest : List Piece} :
    IsHashtag tag s.text t.text c.text →
    SettledAt answers (.opening tag s) (.text t :: .closing tag.name c :: rest)
  | image {tag : StartTag} {s : Slice} {rest : List Piece} : IsImage answers tag s.text →
    SettledAt answers (.leaf tag s) rest

/-- Pieces of what a compile has written. -/
def SettledRun (answers : List ResolvedImage) : List Piece → Prop
  | [] => True
  | p :: rest => SettledAt answers p rest ∧ SettledRun answers rest

variable {answers : List ResolvedImage}

theorem SettledRun.of_append {ps qs : List Piece} (h : SettledRun answers (ps ++ qs)) :
    SettledRun answers qs := by
  induction ps with
  | nil => exact h
  | cons p ps ih => exact ih h.2

theorem settledAt_of_tag?_eq_none {p : Piece} (h : p.tag? = none) (rest : List Piece) :
    SettledAt answers p rest := by
  apply SettledAt.unmarked
  intro tag htag
  rw [h] at htag
  cases htag

theorem Expansion.settledRun {f : Fragment} (h : Expansion answers f) (start : Nat)
    {ps : List Piece} (hps : SettledRun answers ps) :
    SettledRun answers (Piece.all start f.html ++ ps) := by
  cases h with
  | hashtag e =>
    have hdecode : decode ('#' :: escape (dropMark '#' e.text)) = '#' :: dropMark '#' e.text := by
      rw [decode_cons_of_ne (by decide), decode_escape]
    obtain ⟨hmention, himage⟩ := hashtagTag_holds (dropMark '#' e.text)
    rw [(hashtag_pieces e).2]
    exact ⟨.hashtag ⟨hmention, himage, e, hdecode, (hashtag_html_eq e).symm⟩,
      settledAt_of_tag?_eq_none rfl _, settledAt_of_tag?_eq_none rfl _, hps⟩
  | mention e =>
    rw [(mention_pieces e).2]
    refine ⟨.unmarked ?_, settledAt_of_tag?_eq_none rfl _, settledAt_of_tag?_eq_none rfl _, hps⟩
    intro tag htag
    cases htag
    exact mentionTag_unmarked _
  | @image id url hurl =>
    rw [(image_pieces id url).2]
    exact ⟨.image ⟨id, url, rfl, hurl, rfl⟩, hps⟩

/-- What is kept is unmarked. -/
def KeepsUnmarked (l : List Stretch) : Prop :=
  ∀ p, .kept p ∈ l → ∀ tag, p.tag? = some tag → Unmarked tag

theorem KeepsUnmarked.of_cons {x : Stretch} {l : List Stretch} (h : KeepsUnmarked (x :: l)) :
    KeepsUnmarked l :=
  fun p hp => h p (List.mem_cons_of_mem _ hp)

theorem settledRun_of_relexed {l : List Stretch} {ps : List Piece} (h : Relexed l ps)
    (hkept : KeepsUnmarked l)
    (hswapped : ∀ r ∈ l.filterMap Stretch.replaced?, Expansion answers r.2) :
    SettledRun answers ps := by
  induction h with
  | nil => trivial
  | @kept p p' l ps htag _ ih =>
    refine ⟨.unmarked fun tag h => ?_, ih hkept.of_cons hswapped⟩
    exact hkept p List.mem_cons_self tag (htag.symm.trans h)
  | @swapped p run f l ps start _ ih =>
    obtain ⟨hf, hswapped⟩ := List.forall_mem_cons.1 hswapped
    exact hf.settledRun start (ih hkept.of_cons hswapped)

/-! ## What has been written, as a forest -/

/-- A node that is unmarked, or is what was written for a hashtag or an image. -/
inductive SettledNode (answers : List ResolvedImage) : Node → Prop
  | unmarked {m : Node} : (∀ tag, m.tag? = some tag → Unmarked tag) → SettledNode answers m
  | hashtag {tag : StartTag} {s t c : Slice} : IsHashtag tag s.text t.text c.text →
    SettledNode answers (.element tag s (.text t .nil) (some c))
  | image {tag : StartTag} {s : Slice} : IsImage answers tag s.text →
    SettledNode answers (.element tag s .nil none)

namespace SettledNode

variable {m : Node}

/-- What has the mark of images has been written for an image. -/
theorem isImage (h : SettledNode answers m) (hany : m.tag?.any imageMark.holds = true) :
    ∃ tag s, m = .element tag s .nil none ∧ IsImage answers tag s.text := by
  obtain ⟨tag, htag, hholds⟩ := (Option.any_eq_true _ _).1 hany
  cases h with
  | unmarked hnot =>
    rw [(hnot tag htag).image] at hholds
    cases hholds
  | hashtag hhashtag =>
    cases htag
    rw [hhashtag.notImage] at hholds
    cases hholds
  | image himage => exact ⟨_, _, rfl, himage⟩

/-- What has the mark of hashtags has been written for a hashtag. -/
theorem isHashtag (h : SettledNode answers m) (hany : m.tag?.any hashtagMark.holds = true) :
    ∃ tag s t c, m = .element tag s (.text t .nil) (some c) ∧
      IsHashtag tag s.text t.text c.text := by
  obtain ⟨tag, htag, hholds⟩ := (Option.any_eq_true _ _).1 hany
  cases h with
  | unmarked hnot =>
    rw [(hnot tag htag).hashtag] at hholds
    cases hholds
  | hashtag hhashtag => exact ⟨_, _, _, _, rfl, hhashtag⟩
  | image himage =>
    cases htag
    obtain ⟨id, url, rfl, -⟩ := himage
    rw [(imageTag_holds id url).1] at hholds
    cases hholds

/-- Nothing has the mark of mentions. -/
theorem not_mention (h : SettledNode answers m) {tag : StartTag} (htag : m.tag? = some tag) :
    mentionMark.holds tag = false := by
  cases h with
  | unmarked hnot => exact (hnot tag htag).mention
  | hashtag hhashtag =>
    cases htag
    exact hhashtag.notMention
  | image himage =>
    cases htag
    obtain ⟨id, url, rfl, -⟩ := himage
    exact (imageTag_holds id url).2.1

/-- What has a mark has no element among its children. -/
theorem bare (h : SettledNode answers m) {tag : StartTag} (htag : m.tag? = some tag)
    (hmarked : ¬ Unmarked tag) : ∀ k ∈ m.children.top, k.tag? = none := by
  cases h with
  | unmarked hnot => exact absurd (hnot tag htag) hmarked
  | hashtag => simp [Node.children, Forest.top, Node.tag?]
  | image => simp [Node.children, Forest.top]

end SettledNode

theorem settledNode_of_tag?_eq_none {m : Node} (h : m.tag? = none) : SettledNode answers m := by
  apply SettledNode.unmarked
  intro tag htag
  rw [h] at htag
  cases htag

/-- Every node of a forest is settled. -/
def SettledForest (answers : List ResolvedImage) (f : Forest) : Prop :=
  ∀ n ancestors, ∀ p ∈ f.positions n ancestors, SettledNode answers p.node

theorem settledForest_nil : SettledForest answers .nil :=
  fun _ _ _ hp => absurd hp List.not_mem_nil

theorem settledForest_onto {m : Node} {rest : Forest} (hm : SettledNode answers m)
    (hchildren : SettledForest answers m.children) (hrest : SettledForest answers rest) :
    SettledForest answers (m.onto rest) := by
  intro n ancestors p hp
  rw [Forest.positions, Node.walk_onto, if_neg Bool.false_ne_true] at hp
  rcases List.mem_cons.1 hp with rfl | hp
  · exact hm
  rcases List.mem_append.1 hp with hp | hp
  · cases m with
    | text s | raw s => exact absurd hp List.not_mem_nil
    | element tag opening children closing => exact hchildren _ _ p hp
  · exact hrest _ _ p hp

theorem settledForest_text (s : Slice) {rest : Forest} (h : SettledForest answers rest) :
    SettledForest answers (.text s rest) :=
  settledForest_onto (m := .text s) (settledNode_of_tag?_eq_none rfl) settledForest_nil h

theorem settledForest_raw (s : Slice) {rest : Forest} (h : SettledForest answers rest) :
    SettledForest answers (.raw s rest) :=
  settledForest_onto (m := .raw s) (settledNode_of_tag?_eq_none rfl) settledForest_nil h

theorem settledForest_verbatim (s : Slice) : SettledForest answers (.verbatim s) := by
  rw [Forest.verbatim]
  split
  · exact settledForest_nil
  · exact settledForest_text s settledForest_nil

theorem settledForest_grow (opened : List Text) (pieces : List Piece)
    (h : SettledRun answers pieces) : SettledForest answers (Forest.grow opened pieces).forest := by
  fun_induction Forest.grow opened pieces with
  | case1 => exact settledForest_nil
  | case2 opened s rest ih => exact settledForest_text s (ih h.2)
  | case3 opened s rest ih => exact settledForest_raw s (ih h.2)
  | case4 opened tag s rest ih =>
    refine settledForest_onto (m := .element tag s .nil none) ?_ settledForest_nil (ih h.2)
    cases h.1 with
    | unmarked hnot => exact .unmarked hnot
    | image himage => exact .image himage
  | case5 opened tag s content close rest ih =>
    refine settledForest_onto (m := .element tag s (.verbatim content) close) ?_
      (settledForest_verbatim content) (ih h.2)
    cases h.1 with
    | unmarked hnot => exact .unmarked hnot
  | case6 opened name s rest _ => exact settledForest_nil
  | case7 opened name s rest _ ih => exact settledForest_raw s (ih h.2)
  | case8 opened tag s rest children bound hc ih =>
    rw [hc] at ih
    refine settledForest_onto (m := .element tag s children none) ?_ (ih h.2) settledForest_nil
    cases h.1 with
    | unmarked hnot => exact .unmarked hnot
    | hashtag =>
      rw [Forest.grow_text_closing] at hc
      cases hc
  | case9 opened tag s rest children close after g bound hc ihc ihr =>
    have hafter : SettledRun answers after := by
      obtain ⟨cs, -, hcs⟩ := Forest.grown_grow (tag.name :: opened) rest
      rw [hc] at hcs
      have hrun := h.2
      rw [hcs] at hrun
      exact hrun.of_append.2
    rw [hc] at ihc
    refine settledForest_onto (m := .element tag s children (some close)) ?_ (ihc h.2) (ihr hafter)
    cases h.1 with
    | unmarked hnot => exact .unmarked hnot
    | hashtag hhashtag =>
      rw [Forest.grow_text_closing] at hc
      cases hc
      exact .hashtag hhashtag
  | case10 opened tag s rest children name close after bound hc hne ih =>
    rw [hc] at ih
    refine settledForest_onto (m := .element tag s children none) ?_ (ih h.2) settledForest_nil
    cases h.1 with
    | unmarked hnot => exact .unmarked hnot
    | hashtag =>
      rw [Forest.grow_text_closing] at hc
      cases hc
      exact absurd rfl hne

end Compile

end RichContent
