/-
What the default markers pick out.

Each of their selectors is one condition on the tag of an element, so what a
compile expands is read off the tags: an element that is not expanded and not
below an expanded one meets none of the three (`unmarked_of_not_isWithin`).
-/
import RichContent.Proofs.Editor.Course
import RichContent.Proofs.Markup.Grown
import RichContent.Proofs.Markup.Selection

namespace RichContent

open Text

/-- An element is not below a node that has no element among its children. -/
theorem Document.isBelow_of_bare {d : Document} {p : Position} {ids : List NodeId}
    (hp : p ∈ d.nodes) (htag : p.node.tag?.isSome = true)
    (hbare : ∀ q ∈ d.nodes, q.id ∈ ids → ∀ m ∈ q.node.children.top, m.tag? = none) :
    p.isBelow ids = false := by
  rw [Position.isBelow, List.any_eq_false]
  generalize hanc : p.ancestors = ancestors
  induction ancestors generalizing p with
  | nil => exact fun a ha => absurd ha List.not_mem_nil
  | cons outer rest ih =>
    rcases Forest.top_or_child hp with
      htop | ⟨q, hq, tag, opening, children, closing, hnode, hchild⟩
    · rw [Forest.ancestors_of_top htop] at hanc
      cases hanc
    · have hmem : p.node ∈ children.top := by
        rw [← Forest.topPositions_node children (q.id + 1) ((q.id, tag) :: q.ancestors)]
        exact List.mem_map_of_mem hchild
      rw [Forest.ancestors_of_top hchild] at hanc
      obtain ⟨rfl, hrest⟩ := List.cons.inj hanc
      refine List.forall_mem_cons.2 ⟨fun hid => ?_, ih hq (by rw [hnode]; rfl) hrest⟩
      have hnone := hbare q hq (of_decide_eq_true hid) p.node (by rw [hnode]; exact hmem)
      rw [hnone] at htag
      cases htag

namespace Compile

/-! ## The default markers -/

/-- What the default selector of hashtags asks of a tag. -/
def hashtagMark : Compound := ⟨none, [.cls "__xe_hashtag".toList]⟩

/-- What the default selector of mentions asks of a tag. -/
def mentionMark : Compound := ⟨none, [.cls "__xe_mention".toList, .attr "data-id".toList none]⟩

/-- What the default selector of images asks of a tag. -/
def imageMark : Compound :=
  ⟨some (.named "img".toList), [.cls "__xe_image".toList, .attr "data-id".toList none]⟩

theorem parse_hashtagSelector :
    Selector.parse (Markers.hashtagSelector {}) = .ok [[hashtagMark]] := by decide +kernel

theorem parse_mentionSelector :
    Selector.parse (Markers.mentionSelector {}) = .ok [[mentionMark]] := by decide +kernel

theorem parse_imageSelector :
    Selector.parse (Markers.imageSelector {}) = .ok [[imageMark]] := by decide +kernel

/-- No default selector picks out the tag. -/
structure Unmarked (tag : StartTag) : Prop where
  hashtag : hashtagMark.holds tag = false
  mention : mentionMark.holds tag = false
  image : imageMark.holds tag = false

/-! ## What is marked -/

/-- The nodes that a compile with the default markers expands, in a format without links. -/
def marked (content : Text) : Marked :=
  Marked.of (Document.parse content) [[hashtagMark]] [[mentionMark]] [[imageMark]] []

section

variable {e : Editor} {content : Text} {p : Position}

theorem finds_marked (hf : e.format = .html) (hm : e.markers = {}) (content : Text)
    (past : History) : Finds e content past (marked content) := by
  refine .intro (hm ▸ parse_hashtagSelector) (hm ▸ parse_mentionSelector) ?_
    (hm ▸ parse_imageSelector)
  rw [hf]
  rfl

theorem tag?_parse (content : Text) (p : Position) :
    (Document.parse content).tag? p = p.node.tag? := by
  cases hnode : p.node <;> simp [Document.tag?, Document.replacement?, Document.parse, hnode,
    Node.tag?]

/-- In a document with no replacements a mark picks out the elements whose tags have it. -/
theorem mem_select_mark {mark : Compound} :
    p ∈ (Document.parse content).select [[mark]] ↔
      p ∈ (Document.parse content).nodes ∧ p.node.tag?.any mark.holds = true := by
  have hmatch : (Document.parse content).isMatch [[mark]] p = p.node.tag?.any mark.holds := by
    simp [Document.isMatch, Selector.holds, Chain.holds, Chain.heldAround, tag?_parse]
  rw [← hmatch]
  exact List.mem_filter

theorem mem_hashtags : p ∈ (marked content).hashtags ↔
    p ∈ (Document.parse content).nodes ∧ p.node.tag?.any hashtagMark.holds = true :=
  mem_select_mark

theorem mem_mentions : p ∈ (marked content).mentions ↔
    (p ∈ (Document.parse content).nodes ∧ p.node.tag?.any mentionMark.holds = true) ∧
      p.isWithin ((marked content).hashtags.map (·.id)) = false := by
  rw [← mem_select_mark, ← Bool.not_eq_true']
  exact List.mem_filter

theorem mem_images : p ∈ (marked content).images ↔
    (p ∈ (Document.parse content).nodes ∧ p.node.tag?.any imageMark.holds = true) ∧
      p.isWithin ((marked content).hashtags.map (·.id) ++ (marked content).mentions.map (·.id)) =
        false := by
  rw [← mem_select_mark, ← Bool.not_eq_true', ← List.append_nil (_ ++ _)]
  exact List.mem_filter

theorem ids_marked (content : Text) : (marked content).ids =
    (marked content).hashtags.map (·.id) ++ (marked content).mentions.map (·.id) ++
      (marked content).images.map (·.id) := by
  have hlinks : (marked content).links = [] := rfl
  rw [Marked.ids, hlinks, List.map_nil, List.append_nil]

theorem mem_of_mem_ids (hp : p ∈ (Document.parse content).nodes)
    (h : p.id ∈ (marked content).ids) : p ∈ (marked content).hashtags ∨
      p ∈ (marked content).mentions ∨ p ∈ (marked content).images := by
  rw [ids_marked, List.mem_append, List.mem_append] at h
  rcases h with (h | h) | h
  all_goals obtain ⟨q, hq, hid⟩ := List.mem_map.1 h
  · exact .inl (Document.eq_of_id (mem_hashtags.1 hq).1 hp hid ▸ hq)
  · exact .inr (.inl (Document.eq_of_id (mem_mentions.1 hq).1.1 hp hid ▸ hq))
  · exact .inr (.inr (Document.eq_of_id (mem_images.1 hq).1.1 hp hid ▸ hq))

/-- A node that is expanded is an element with a mark. -/
theorem exists_marked_tag (hp : p ∈ (Document.parse content).nodes)
    (h : p.id ∈ (marked content).ids) : ∃ tag, p.node.tag? = some tag ∧ ¬ Unmarked tag := by
  have hmark {mark : Compound} (hany : p.node.tag?.any mark.holds = true)
      (hunmarked : ∀ tag, Unmarked tag → mark.holds tag = false) :
      ∃ tag, p.node.tag? = some tag ∧ ¬ Unmarked tag := by
    obtain ⟨tag, htag, hholds⟩ := (Option.any_eq_true _ _).1 hany
    refine ⟨tag, htag, fun hnot => ?_⟩
    rw [hunmarked tag hnot] at hholds
    cases hholds
  rcases mem_of_mem_ids hp h with h | h | h
  · exact hmark (mem_hashtags.1 h).2 fun _ hnot => hnot.hashtag
  · exact hmark (mem_mentions.1 h).1.2 fun _ hnot => hnot.mention
  · exact hmark (mem_images.1 h).1.2 fun _ hnot => hnot.image

/-- An element that is neither expanded nor below an expanded one has no mark. -/
theorem unmarked_of_not_isWithin (hp : p ∈ (Document.parse content).nodes)
    (h : p.isWithin (marked content).ids = false) {tag : StartTag}
    (htag : p.node.tag? = some tag) : Unmarked tag := by
  rw [ids_marked, Position.isWithin_append, Bool.or_eq_false_iff] at h
  obtain ⟨hearlier, himage⟩ := h
  have hparts := hearlier
  rw [Position.isWithin_append, Bool.or_eq_false_iff] at hparts
  obtain ⟨hhash, hment⟩ := hparts
  have hany {mark : Compound} (hholds : mark.holds tag = true) :
      p.node.tag?.any mark.holds = true := by
    rw [htag]
    exact hholds
  refine ⟨Bool.eq_false_iff.2 fun hholds => ?_, Bool.eq_false_iff.2 fun hholds => ?_,
    Bool.eq_false_iff.2 fun hholds => ?_⟩
  · exact Position.not_mem_of_isWithin hhash
      (List.mem_map_of_mem (mem_hashtags.2 ⟨hp, hany hholds⟩))
  · exact Position.not_mem_of_isWithin hment
      (List.mem_map_of_mem (mem_mentions.2 ⟨⟨hp, hany hholds⟩, hhash⟩))
  · exact Position.not_mem_of_isWithin himage
      (List.mem_map_of_mem (mem_images.2 ⟨⟨hp, hany hholds⟩, hearlier⟩))

end

end Compile

end RichContent
