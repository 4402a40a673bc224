/-
What the names of markers pick out.

The names are put into the texts of selectors as they are. Names that do not
end within such a text (`Markers.Whole`) pick out what they name, in every
stage of a compile, unless a selector with them cannot be read
(`Editor.expand_byName`). Other names can pick out something else
(`Editor.expand_not_byName`).
-/
import RichContent.Proofs.Editor.Course
import RichContent.Proofs.Markup.Attributes
import RichContent.Proofs.Selector.Pasted

namespace RichContent

open Text

/-! ## What is named -/

namespace Markers

/-- Is one of the classes that of hashtags? -/
def isHashtag (m : Markers) (tag : StartTag) : Bool := tag.classes.contains m.tagClass

/-- Is one of the classes that of mentions, and is the attribute that identifies them there? -/
def isMention (m : Markers) (tag : StartTag) : Bool :=
  tag.classes.contains m.mentionClass && tag.carries m.mentionIdentifier

/-- Is it an `img`, is one of the classes that of images, and is the attribute that identifies
them there? -/
def isImage (m : Markers) (tag : StartTag) : Bool :=
  lower tag.name == "img".toList &&
    (tag.classes.contains m.imageClass && tag.carries m.imageIdentifier)

/-- Names that can be put into a selector: none is cut short there, and white space is not dropped
at the end of a selector or around the name of an attribute. -/
structure Whole (m : Markers) : Prop where
  tagClass : ¬ Selector.CutShort Selector.endsClass m.tagClass
  tagClass_last : ∀ c, m.tagClass.getLast? = some c → isWhiteSpace c = false
  mentionClass : ¬ Selector.CutShort Selector.endsClass m.mentionClass
  imageClass : ¬ Selector.CutShort Selector.endsClass m.imageClass
  mentionIdentifier : ¬ Selector.CutShort Selector.endsAttribute m.mentionIdentifier
  mentionIdentifier_head : ∀ c r, m.mentionIdentifier = c :: r → Token.isSpace c = false
  imageIdentifier : ¬ Selector.CutShort Selector.endsAttribute m.imageIdentifier
  imageIdentifier_head : ∀ c r, m.imageIdentifier = c :: r → Token.isSpace c = false

end Markers

namespace Document

/-- The elements of a kind that are reached, in document order. -/
def elements (d : Document) (kind : StartTag → Bool) : List Position :=
  d.reachable.filter fun p => (d.tag? p).any kind

/-- One attribute of the node has the name, in any case of letters, and its value is what is read
under the name. -/
def Reads (d : Document) (name : Text) (p : Position) : Prop :=
  ∃ tag, d.tag? p = some tag ∧ ∃ a ∈ tag.attributes, lower a.name = lower name ∧
    (∀ b ∈ tag.attributes, lower b.name = lower name → b = a) ∧
    (d.entity [name] p).value? name = a.value

variable {d : Document} {content : Text} {p : Position}

/-- The tags of a document are read from texts, whatever has been replaced in it. -/
theorem exists_parse_of_tag (hd : d.forest = Forest.parse content) (hp : p ∈ d.reachable)
    {tag : StartTag} (htag : d.tag? p = some tag) : ∃ t, StartTag.parse t = tag := by
  have hmem : p ∈ (Forest.parse content).positions 0 [] := hd ▸ mem_nodes_of_reachable hp
  rw [tag?] at htag
  split at htag
  · rename_i hnode
    refine Forest.exists_parse_of_node hmem ?_
    rw [hnode]
    exact htag
  · cases htag

/-- A selector with one condition picks out a kind of elements if it holds of the tags of the
kind. -/
theorem select_eq_elements (hd : d.forest = Forest.parse content) {mark : Compound}
    {kind : StartTag → Bool} (h : ∀ t, mark.holds (.parse t) = kind (.parse t)) :
    d.select [[mark]] = d.elements kind := by
  refine List.filter_congr fun p hp => ?_
  have hmatch : d.isMatch [[mark]] p = (d.tag? p).any mark.holds := by
    simp [isMatch, Selector.holds, Chain.holds, Chain.heldAround]
  rw [hmatch]
  cases htag : d.tag? p with
  | none => rfl
  | some tag =>
    obtain ⟨t, rfl⟩ := exists_parse_of_tag hd hp htag
    exact h t

/-- Where an attribute is there, it is the one whose value is read. -/
theorem reads_of_carries (hd : d.forest = Forest.parse content) {kind : StartTag → Bool}
    {name : Text} (hkind : ∀ tag, kind tag = true → tag.carries name = true)
    (hp : p ∈ d.elements kind) : d.Reads name p := by
  obtain ⟨hreach, hany⟩ := List.mem_filter.1 hp
  obtain ⟨tag, htag, hholds⟩ := (Option.any_eq_true _ _).1 hany
  obtain ⟨t, rfl⟩ := exists_parse_of_tag hd hreach htag
  obtain ⟨a, ha, hname⟩ := List.any_eq_true.1 (hkind _ hholds)
  rw [beq_iff_eq] at hname
  have hfound := StartTag.find?_eq_some.2 ⟨ha, hname⟩
  refine ⟨_, htag, a, ha, hname, fun b hb hbname => ?_, ?_⟩
  · have hother := StartTag.find?_eq_some.2 ⟨hb, hbname⟩
    exact Option.some.inj (hother.symm.trans hfound)
  · simp [Entity.value?, entity, htag, StartTag.value?, hfound]

end Document

/-! ## The stages, by name -/

namespace Compile

/-- Expands the elements that are hashtags by name. -/
def namedHashtags (m : Markers) (d : Document) : Document :=
  d.replaceEach (d.elements m.isHashtag) (hashtagAt m d)

/-- Expands the elements that are mentions by name. -/
def namedMentions (m : Markers) (d : Document) : Document :=
  d.replaceEach (d.elements m.isMention) (mentionAt m d)

/-- Expands the elements that are images by name. -/
def namedImages (m : Markers) (registry : ImageRegistry) (d : Document) : Traced Document :=
  let found := d.elements m.isImage
  if found = [] then pure d else do
    let answers ← registry.resolve (found.map (imageId m d))
    let fragments ← Traced.ofExcept
      (imageFragments m answers (found.map fun p => (p.id, imageId m d p)))
    pure (d.replaceAll fragments)

end Compile

open Compile

/-- The document of some content with its inline entities expanded, which are the elements that
the markers name. -/
def Editor.expandByName (e : Editor) (content : Text) : Traced Document :=
  let m := e.markers
  links e.format (namedMentions m (namedHashtags m (Document.parse content))) >>=
    namedImages m e.images

namespace Markers

variable {m : Markers} {d : Document} {content : Text} {s : Selector}

theorem select_hashtags (hw : m.Whole) (hd : d.forest = Forest.parse content)
    (h : Selector.parse m.hashtagSelector = .ok s) : d.select s = d.elements m.isHashtag := by
  rw [Selector.parse_class hw.tagClass hw.tagClass_last h]
  refine Document.select_eq_elements hd fun t => ?_
  simp [Compound.holds, Qualifier.holds, isHashtag]

theorem select_mentions (hw : m.Whole) (hd : d.forest = Forest.parse content)
    (h : Selector.parse m.mentionSelector = .ok s) : d.select s = d.elements m.isMention := by
  have hwritten : m.mentionSelector =
      [] ++ ('.' :: m.mentionClass ++ ('[' :: m.mentionIdentifier ++ [']'])) :=
    List.append_assoc _ _ _
  rw [hwritten] at h
  rw [Selector.parse_classAttribute (.inl ⟨rfl, rfl⟩) hw.mentionClass hw.mentionIdentifier
    hw.mentionIdentifier_head h]
  refine Document.select_eq_elements hd fun t => ?_
  simp [Compound.holds, Qualifier.holds, isMention, StartTag.hasAttribute_eq_carries]

theorem select_images (hw : m.Whole) (hd : d.forest = Forest.parse content)
    (h : Selector.parse m.imageSelector = .ok s) : d.select s = d.elements m.isImage := by
  have hwritten : m.imageSelector =
      "img".toList ++ ('.' :: m.imageClass ++ ('[' :: m.imageIdentifier ++ [']'])) := by
    simp [Markers.imageSelector]
  rw [hwritten] at h
  rw [Selector.parse_classAttribute (.inr ⟨rfl, rfl⟩) hw.imageClass hw.imageIdentifier
    hw.imageIdentifier_head h]
  refine Document.select_eq_elements hd fun t => ?_
  have himg : lower "img".toList = "img".toList := by decide
  simp only [Compound.holds, Option.all_some, List.all_cons, List.all_nil, Bool.and_true,
    TypeSelector.holds, Qualifier.holds, isImage, StartTag.hasAttribute_eq_carries, himg]

end Markers

namespace Compile

variable {m : Markers} {d : Document} {content : Text}

/-- The selector cannot be read, and this is what comes of the stage that it is for. -/
def Unreadable {α : Type} (t : Text) (stage : Traced α) : Prop :=
  ∃ err, Selector.parse t = .error err ∧ stage = Traced.fail (.selector t err)

theorem unreadable_or {α : Type} {t : Text} {stage named : Traced α}
    (herror : ∀ err, Selector.parse t = .error err → stage = Traced.fail (.selector t err))
    (hok : ∀ s, Selector.parse t = .ok s → stage = named) : Unreadable t stage ∨ stage = named := by
  cases h : Selector.parse t with
  | error err => exact .inl ⟨err, h, herror err h⟩
  | ok s => exact .inr (hok s h)

theorem hashtags_byName (hw : m.Whole) (hd : d.forest = Forest.parse content) :
    Unreadable m.hashtagSelector (hashtags m d) ∨ hashtags m d = pure (namedHashtags m d) := by
  refine unreadable_or (fun err h => ?_) fun s h => ?_
  · rw [hashtags, markerSelector_of_error h]
    rfl
  · rw [hashtags_of_read (read_of_parse h), Markers.select_hashtags hw hd h]
    rfl

theorem mentions_byName (hw : m.Whole) (hd : d.forest = Forest.parse content) :
    Unreadable m.mentionSelector (mentions m d) ∨ mentions m d = pure (namedMentions m d) := by
  refine unreadable_or (fun err h => ?_) fun s h => ?_
  · rw [mentions, markerSelector_of_error h]
    rfl
  · rw [mentions_of_read (read_of_parse h), Markers.select_mentions hw hd h]
    rfl

theorem images_byName (hw : m.Whole) (hd : d.forest = Forest.parse content)
    (registry : ImageRegistry) : Unreadable m.imageSelector (images m registry d) ∨
      images m registry d = namedImages m registry d := by
  refine unreadable_or (fun err h => ?_) fun s h => ?_
  · rw [images, markerSelector_of_error h]
    rfl
  · rw [images_of_read (read_of_parse h), Markers.select_images hw hd h]
    rfl

@[simp] theorem forest_namedHashtags (m : Markers) (d : Document) :
    (namedHashtags m d).forest = d.forest :=
  Document.forest_replaceAll _ _

@[simp] theorem forest_namedMentions (m : Markers) (d : Document) :
    (namedMentions m d).forest = d.forest :=
  Document.forest_replaceAll _ _

theorem forest_of_links {f : ContentFormat} {past : History} {d' : Document}
    (h : (links f d past).result = .ok d') : d'.forest = d.forest := by
  rw [links_eq] at h
  cases hf : f.links.answer past d with
  | error e =>
    rw [hf] at h
    cases h
  | ok fragments =>
    rw [hf] at h
    cases h
    exact Document.forest_replaceAll d fragments

end Compile

/-- A compile fails if the stages do. -/
theorem Editor.compile_of_error {e : Editor} {content : Text} {past : History} {err : EditorError}
    (h : (e.expand content past).result = .error err) :
    (e.compile content past).result = .error err := by
  rw [compile, Traced.bind_of_error h]

/-- The stages do what they do by name, or a selector cannot be read and they fail. -/
theorem Editor.expand_eq_or_error {e : Editor} (hw : e.markers.Whole) (content : Text)
    (past : History) : e.expand content past = e.expandByName content past ∨
      ∃ t ∈ [e.markers.hashtagSelector, e.markers.mentionSelector, e.markers.imageSelector],
        ∃ err, Selector.parse t = .error err ∧
          (e.expand content past).result = .error (.selector t err) := by
  rw [expand, expandByName]
  rcases hashtags_byName hw (d := Document.parse content) rfl with ⟨err, hparse, h⟩ | h
  · exact .inr ⟨_, List.mem_cons_self, err, hparse, by rw [h]; rfl⟩
  rw [h, Traced.pure_bind]
  have hforest : (namedHashtags e.markers (Document.parse content)).forest = Forest.parse content :=
    forest_namedHashtags _ _
  rcases mentions_byName hw hforest with ⟨err, hparse, h⟩ | h
  · exact .inr ⟨_, .tail _ List.mem_cons_self, err, hparse, by rw [h]; rfl⟩
  rw [h, Traced.pure_bind]
  generalize hd : namedMentions e.markers _ = d
  cases hlinks : (links e.format d past).result with
  | error err =>
    left
    rw [Traced.bind_of_error hlinks, Traced.bind_of_error hlinks]
  | ok d' =>
    have hforest' : d'.forest = Forest.parse content := by
      rw [forest_of_links hlinks, ← hd, forest_namedMentions, hforest]
    rw [Traced.bind_of_ok hlinks, Traced.bind_of_ok hlinks]
    rcases images_byName hw hforest' e.images with ⟨err, hparse, h⟩ | h
    · exact .inr ⟨_, .tail _ (.tail _ List.mem_cons_self), err, hparse, by rw [h]; rfl⟩
    · exact .inl (by rw [h])

/-- **The stages pick out what the markers name**, or a selector with the names cannot be read
and the compile fails with the error of reading it. What is read to identify a mention or an
image is the value of the attribute that had to be there. -/
theorem Editor.expand_byName {e : Editor} (hw : e.markers.Whole) (content : Text)
    (past : History) : (e.expand content past = e.expandByName content past ∨
      ∃ t ∈ [e.markers.hashtagSelector, e.markers.mentionSelector, e.markers.imageSelector],
        ∃ err, Selector.parse t = .error err ∧
          (e.compile content past).result = .error (.selector t err)) ∧
    ∀ d : Document, d.forest = Forest.parse content →
      (∀ p ∈ d.elements e.markers.isMention, d.Reads e.markers.mentionIdentifier p) ∧
        ∀ p ∈ d.elements e.markers.isImage, d.Reads e.markers.imageIdentifier p := by
  refine ⟨?_, fun d hd => ⟨fun p hp => ?_, fun p hp => ?_⟩⟩
  · rcases Editor.expand_eq_or_error hw content past with h | ⟨t, ht, err, hparse, h⟩
    · exact .inl h
    · exact .inr ⟨t, ht, err, hparse, Editor.compile_of_error h⟩
  · refine Document.reads_of_carries hd (fun tag h => ?_) hp
    exact (Bool.and_eq_true_iff.1 h).2
  · refine Document.reads_of_carries hd (fun tag h => ?_) hp
    exact (Bool.and_eq_true_iff.1 (Bool.and_eq_true_iff.1 h).2).2

/-- Names of one's own, with digits and both cases of letters, and a value with a quote in it. -/
theorem Editor.expand_byName_custom :
    let host : Host := ⟨.always fun _ => .ok [], .always fun _ => .ok true, .always fun _ => .ok []⟩
    let e : Editor :=
      { Editor.new (InstancePlan.buildWithoutTools { id := [] }) .html host with
        images := ⟨some (.always fun _ => .ok [⟨"k".toList, "u&".toList⟩])⟩
        markers :=
          { tagClass := "Tag7".toList, mentionClass := "at-1".toList, imageClass := "pic".toList
            mentionIdentifier := "Data-User".toList, imageIdentifier := "key_x".toList } }
    let content := ("<b class='a Tag7'>#t</b><i class=at-1 DATA-user='u\"1'>@n</i>" ++
      "<IMG class=pic key_x=k><img class=pic data-id=k>").toList
    let y := ("<a href=\"#t\" class=\"Tag7\">#t</a><span role=\"button\" class=\"at-1\"" ++
      " data-toggle=\"xeUserMenu\" data-user-id=\"u&quot;1\">@n</span>" ++
      "<img src=\"u&amp;\" class=\"pic\" data-id=\"k\" /><img class=pic data-id=k>").toList
    e.markers.Whole ∧ (e.compile content []).result = .ok y ∧
      e.expand content [] = e.expandByName content [] ∧
      ((Document.parse content).elements e.markers.isMention).length = 1 ∧
      ∀ p ∈ (Document.parse content).elements e.markers.isMention,
        (Document.parse content).Reads "Data-User".toList p := by
  intro host e content y
  have hw : e.markers.Whole := by
    refine ⟨Selector.not_cutShort ?_, fun c h => ?_, Selector.not_cutShort ?_,
      Selector.not_cutShort ?_, Selector.not_cutShort ?_, fun c r h => ?_,
      Selector.not_cutShort ?_, fun c r h => ?_⟩
    case refine_2 | refine_6 | refine_8 =>
      cases h
      decide
    all_goals decide +kernel
  have hy : (e.compile content []).result = .ok y := by decide +kernel
  obtain ⟨hstages, hread⟩ := Editor.expand_byName hw content []
  refine ⟨hw, hy, ?_, by decide +kernel, (hread _ rfl).1⟩
  rcases hstages with h | ⟨t, -, err, -, herr⟩
  · exact h
  · rw [hy] at herr
    cases herr

/-- With a dot in the class of hashtags, an element is expanded that does not have the class. With
blanks around the name of an attribute, an element is expanded that has no attribute of the name,
and the value that is read is not that of the attribute that had to be there. -/
theorem Editor.expand_not_byName :
    let host : Host := ⟨.always fun _ => .ok [], .always fun _ => .ok true, .always fun _ => .ok []⟩
    let editor : Markers → Editor := fun markers =>
      { Editor.new (InstancePlan.buildWithoutTools { id := [] }) .html host with markers }
    let dotted : Markers := { tagClass := "a.b".toList }
    let spaced : Markers := { mentionIdentifier := " data-id ".toList }
    let hashtag := "<b class=\"a b\">#t</b>".toList
    let mention := "<b class=\"__xe_mention\" data-id=\"7\">@u</b>".toList
    (Document.parse hashtag).elements dotted.isHashtag = [] ∧
      ((editor dotted).compile hashtag []).result =
        .ok "<a href=\"#t\" class=\"a.b\">#t</a>".toList ∧
      (Document.parse mention).elements spaced.isMention = [] ∧
      ((editor spaced).compile mention []).result =
        .ok ("<span role=\"button\" class=\"__xe_mention\" data-toggle=\"xeUserMenu\"" ++
          " data-user-id=\"\">@u</span>").toList := by
  intro host editor dotted spaced hashtag mention
  refine ⟨?_, by decide +kernel, ?_, by decide +kernel⟩
  · decide +kernel
  · decide +kernel

end RichContent
