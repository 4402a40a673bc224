/-
A compile is an exact splice of the source.

The stages work on one document and see what earlier stages have left of it,
but what they do together is said on the source alone: `Marked` are the nodes
that each stage picks, found in the source, and the markup that is handed to
the format is the source with the outermost of them replaced, each by what its
own stage makes of it, and every other byte kept (`expand_splices`).
-/
import RichContent.Proofs.Editor.Stages
import RichContent.Proofs.Markup.Lossless

namespace RichContent

open Text

/-- What is found for the number of a node was made of the node. -/
theorem Document.made_of_lookup {d : Document} {found : List Position} {make : Position → Fragment}
    {p : Position} {f : Fragment} (hp : p ∈ d.nodes) (hfound : ∀ q ∈ found, q ∈ d.nodes)
    (h : (found.map fun q => (q.id, make q)).reverse.lookup p.id = some f) :
    p ∈ found ∧ make p = f := by
  obtain ⟨q, hq, hqp, rfl⟩ := mem_of_lookup_each h
  obtain rfl := eq_of_id (hfound q hq) hp hqp
  exact ⟨hq, rfl⟩

namespace Compile

/-- The nodes of a source that the stages expand. The links are what the format gives. -/
structure Marked where
  hashtags : List Position
  mentions : List Position
  links : List (NodeId × Fragment)
  images : List Position

namespace Marked

/-- The nodes of a document that each stage expands: those that its selector picks out, less what
is within a node that an earlier stage expands. -/
def of (d : Document) (hashtag mention image : Selector) (links : List (NodeId × Fragment)) :
    Marked :=
  let hashtags := d.select hashtag
  let mentions := (d.select mention).filter fun p => !p.isWithin (hashtags.map (·.id))
  let images := (d.select image).filter fun p =>
    !p.isWithin (hashtags.map (·.id) ++ mentions.map (·.id) ++ links.map (·.1))
  ⟨hashtags, mentions, links, images⟩

variable (x : Marked) (m : Markers) (d : Document)

/-- The numbers of all nodes that are expanded. -/
def ids : List NodeId :=
  x.hashtags.map (·.id) ++ x.mentions.map (·.id) ++ x.links.map (·.1) ++ x.images.map (·.id)

/-- The expanded nodes with no other around them, in document order. -/
def outermost : List Position := d.nodes.filter fun p => p.id ∈ x.ids && !p.isBelow x.ids

/-- The document that the mentions are read from. -/
def afterHashtags : Document := d.replaceEach x.hashtags (hashtagAt m d)

/-- The document that the links are read from. -/
def afterMentions : Document :=
  (x.afterHashtags m d).replaceEach x.mentions (mentionAt m (x.afterHashtags m d))

/-- The document that the images are read from. -/
def afterLinks : Document := (x.afterMentions m d).replaceAll x.links

/-- What a compile makes of a document. -/
def afterImages (answers : List ResolvedImage) : Document :=
  (x.afterLinks m d).replaceEach x.images (imageAt m answers (x.afterLinks m d))

/-- What the stage of a node puts in its place. The text of a mention contains the texts of the
hashtags in it; where the format gives a fragment, the last one it gives counts. -/
inductive Expands (answers : List ResolvedImage) : Position → Fragment → Prop
  | hashtag {p : Position} : p ∈ x.hashtags → p.id ∉ x.links.map (·.1) →
    Expands answers p (hashtagAt m d p)
  | mention {p : Position} : p ∈ x.mentions → p.id ∉ x.links.map (·.1) →
    Expands answers p (mentionAt m (x.afterHashtags m d) p)
  | link {p : Position} {f : Fragment} : x.links.reverse.lookup p.id = some f → Expands answers p f
  | image {p : Position} {url : Text} : p ∈ x.images →
    urlOf? answers (imageId m d p) = some url →
    Expands answers p (Compile.image m (imageId m d p) url)

end Marked

/-- The markup that a compile hands to the format is the content with edits made in it, one for
each of the outermost marked nodes. -/
structure Splices (e : Editor) (content : Text) (past : History) (x : Marked)
    (answers : List ResolvedImage) (edits : List (Position × Fragment)) : Prop where
  /-- The links are what the format makes of the document with hashtags and mentions expanded. -/
  links : e.format.links.answer past (x.afterMentions e.markers (Document.parse content)) =
    .ok x.links
  noLinks : ∀ name, ContentFormat.builtin? name = some e.format → x.links = []
  asked : x.images = [] ∨ ∃ resolver, e.images.resolver? = some resolver ∧
    resolver.answer (past ++ [.links]) (ImageRegistry.distinct
      (x.images.map (imageId e.markers (Document.parse content)))) = .ok answers
  nodes : edits.map (·.1) = x.outermost (Document.parse content)
  fragments : ∀ p f, (p, f) ∈ edits → x.Expands e.markers (Document.parse content) answers p f
  inSource : ∀ p f, (p, f) ∈ edits → p.node.slice.In content
  apart : Edit.Apart (edits.map fun (p, f) => p.edit f)
  /-- The format is called once. -/
  body : (e.compile content past).calls.filterMap Call.body? =
    [splice 0 content (edits.map fun (p, f) => p.edit f)]
  unmarked : x.outermost (Document.parse content) = [] →
    (e.compile content past).calls.filterMap Call.body? = [content]

namespace Marked

variable {d : Document} {m : Markers} {sh sm si : Selector} {links : List (NodeId × Fragment)}

/-- The stages before the links expand the marked hashtags and mentions. -/
theorem afterMentions_of (m : Markers) (sh sm si : Selector) (links : List (NodeId × Fragment))
    (content : Text) :
    (Marked.of (Document.parse content) sh sm si links).afterMentions m (Document.parse content) =
      beforeLinks m sh sm content := by
  rw [afterMentions, afterHashtags, beforeLinks, Document.select_replaceEach]
  rfl

/-- The stage of the images finds the marked images. -/
theorem select_images (m : Markers) (sh sm si : Selector) (links : List (NodeId × Fragment))
    (content : Text) :
    ((beforeLinks m sh sm content).replaceAll links).select si =
      (Marked.of (Document.parse content) sh sm si links).images := by
  rw [Document.select_replaceAll, beforeLinks, Document.select_replaceEach,
    Document.select_replaceEach, Document.select_replaceEach, List.filter_filter,
    List.filter_filter]
  apply List.filter_congr
  intro p _
  simp only [Position.isWithin_append, Bool.not_or]
  grind

/-- The marked nodes are nodes of the document. -/
theorem mem_nodes_of (d : Document) (sh sm si : Selector) (links : List (NodeId × Fragment)) :
    (∀ p ∈ (Marked.of d sh sm si links).hashtags, p ∈ d.nodes) ∧
    (∀ p ∈ (Marked.of d sh sm si links).mentions, p ∈ d.nodes) ∧
    (∀ p ∈ (Marked.of d sh sm si links).images, p ∈ d.nodes) :=
  ⟨fun _ hp => Document.mem_nodes_of_select hp,
    fun _ hp => Document.mem_nodes_of_select (List.mem_filter.1 hp).1,
    fun _ hp => Document.mem_nodes_of_select (List.mem_filter.1 hp).1⟩

/-! ## The document in the end -/

section

variable (x : Marked) (m : Markers) (d : Document) (answers : List ResolvedImage)

@[simp] theorem nodes_afterImages : (x.afterImages m d answers).nodes = d.nodes := by
  simp [afterImages, afterLinks, afterMentions, afterHashtags, Document.replaceEach]

@[simp] theorem forest_afterImages : (x.afterImages m d answers).forest = d.forest := by
  simp [afterImages, afterLinks, afterMentions, afterHashtags, Document.replaceEach]

theorem mem_replacedIds_afterLinks (id : NodeId) :
    id ∈ (x.afterLinks m d).replacedIds ↔
      id ∈ x.hashtags.map (·.id) ++ x.mentions.map (·.id) ++ x.links.map (·.1) ∨
        id ∈ d.replacedIds := by
  simp only [afterLinks, afterMentions, afterHashtags, Document.mem_replacedIds_replaceAll,
    Document.mem_replacedIds_replaceEach, List.mem_append]
  tauto

/-- The marked nodes are those that are replaced. -/
theorem mem_replacedIds_afterImages (id : NodeId) :
    id ∈ (x.afterImages m d answers).replacedIds ↔ id ∈ x.ids ∨ id ∈ d.replacedIds := by
  rw [afterImages, Document.mem_replacedIds_replaceEach, mem_replacedIds_afterLinks, ids,
    List.mem_append (t := x.images.map (·.id))]
  tauto

/-- The stages before have left the marked images as they are. -/
theorem imageId_afterLinks {d : Document} (hd : d.replacements = []) (sh sm si : Selector)
    (links : List (NodeId × Fragment)) {p : Position}
    (hp : p ∈ (Marked.of d sh sm si links).images) :
    imageId m ((Marked.of d sh sm si links).afterLinks m d) p = imageId m d p := by
  have hid : p.id ∉ ((Marked.of d sh sm si links).afterLinks m d).replacedIds := by
    intro hmem
    have hnone : p.id ∉ d.replacedIds := by simp [Document.replacedIds, hd]
    have hearlier := ((mem_replacedIds_afterLinks _ _ _ _).1 hmem).resolve_right hnone
    have hout := (List.mem_filter.1 hp).2
    rw [Bool.not_eq_true'] at hout
    exact Position.not_mem_of_isWithin hout hearlier
  rw [imageId_original hid]
  simp only [afterLinks, afterMentions, afterHashtags, Document.replaceEach,
    Document.original_replaceAll]
  rw [Document.original, ← hd]

/-- The replaced nodes that are reached are the outermost marked ones. -/
theorem map_fst_replaced_afterImages (h : d.replacements = []) :
    (x.afterImages m d answers).replaced.map (·.1) = x.outermost d := by
  have hids (id : NodeId) : id ∈ (x.afterImages m d answers).replacedIds ↔ id ∈ x.ids := by
    rw [mem_replacedIds_afterImages, Document.replacedIds, h]
    simp
  rw [Document.map_fst_replaced, nodes_afterImages, outermost]
  apply List.filter_congr
  intro p _
  rw [Position.isBelow_congr p hids, decide_eq_decide.2 (hids p.id)]

end

/-- A node that an expansion is given for is one of the marked nodes, and the expansion is the one
that its stage makes. -/
theorem expands_of_replacement? {x : Marked} {d : Document} {answers : List ResolvedImage}
    {p : Position} {f : Fragment} (hp : p ∈ d.nodes) (hd : d.replacements = [])
    (hh : ∀ q ∈ x.hashtags, q ∈ d.nodes) (hm : ∀ q ∈ x.mentions, q ∈ d.nodes)
    (hi : ∀ q ∈ x.images, q ∈ d.nodes)
    (hid : ∀ q ∈ x.images, imageId m (x.afterLinks m d) q = imageId m d q)
    (hurl : ∀ q ∈ x.images, (urlOf? answers (imageId m d q)).isSome)
    (h : (x.afterImages m d answers).replacement? p.id = some f) : x.Expands m d answers p f := by
  rw [afterImages, Document.replacement?_replaceEach, Option.or_eq_some_iff] at h
  rcases h with h | ⟨-, h⟩
  · obtain ⟨hmarked, rfl⟩ := Document.made_of_lookup hp hi h
    obtain ⟨url, hsome⟩ := Option.isSome_iff_exists.1 (hurl p hmarked)
    rw [imageAt, hid p hmarked, hsome]
    exact .image hmarked hsome
  rw [afterLinks, Document.replacement?_replaceAll, Option.or_eq_some_iff] at h
  rcases h with h | ⟨hlinks, h⟩
  · exact .link h
  have hnot : p.id ∉ x.links.map (·.1) := by
    intro hmem
    obtain ⟨r, hr, hk⟩ := List.mem_map.1 hmem
    simpa [hk] using List.lookup_eq_none_iff.1 hlinks r (List.mem_reverse.2 hr)
  rw [afterMentions, Document.replacement?_replaceEach, Option.or_eq_some_iff] at h
  rcases h with h | ⟨-, h⟩
  · obtain ⟨hmarked, rfl⟩ := Document.made_of_lookup hp hm h
    exact .mention hmarked hnot
  rw [afterHashtags, Document.replacement?_replaceEach, Option.or_eq_some_iff] at h
  rcases h with h | ⟨-, h⟩
  · obtain ⟨hmarked, rfl⟩ := Document.made_of_lookup hp hh h
    exact .hashtag hmarked hnot
  · simp [Document.replacement?, hd] at h

end Marked

/-! ## The markup that is handed to the format -/

/-- The expansion of the entities does not call the format. -/
theorem body?_expand (e : Editor) (content : Text) (past : History) :
    (e.expand content past).calls.filterMap Call.body? = [] := by
  have hmarker (t : Text) : Traced.Makes (·.body? = none) (markerSelector t) :=
    Traced.makes_ofExcept _
  refine List.filterMap_eq_nil_iff.2 (Traced.makes_bind ?_ (fun d₁ => ?_) past)
  · exact Traced.makes_bind (hmarker _) fun _ => Traced.makes_pure _
  refine Traced.makes_bind ?_ fun d₂ => ?_
  · exact Traced.makes_bind (hmarker _) fun _ => Traced.makes_pure _
  refine Traced.makes_bind ?_ fun d₃ => makes_images e.markers e.images d₃
  refine Traced.makes_bind (Traced.makes_ask ?_ _ _) fun _ => Traced.makes_pure _
  rfl

theorem body?_fileList (host : Host) (files : List AttachedFile) (past : History) :
    (fileList host files past).calls.filterMap Call.body? = [] := by
  cases files <;> rfl

/-- Once the entities are expanded the format is called with the markup, whatever it makes
of it. -/
theorem body?_compile {e : Editor} {content : Text} {past : History} {d : Document}
    (h : (e.expand content past).result = .ok d) :
    (e.compile content past).calls.filterMap Call.body? =
      (e.expand content past).calls.filterMap Call.body? ++ [d.html] := by
  rw [Editor.compile, Traced.bind_of_ok h, List.filterMap_append]
  congr 1
  generalize past ++ (e.expand content past).calls = past'
  cases hb : e.format.body.answer past' d.html with
  | error failure =>
    have hask := Service.ask_of_error hb .host
    rw [Traced.bind_of_error (by rw [hask]), hask]
    rfl
  | ok body =>
    have hask := Service.ask_of_ok hb .host
    rw [Traced.bind_of_ok (by rw [hask]), Traced.bind_pure_apply, hask, List.filterMap_append,
      body?_fileList]
    rfl

theorem links_of_builtin {name : Text} {f : ContentFormat}
    (h : ContentFormat.builtin? name = some f) (past : History) (d : Document) :
    f.links.answer past d = .ok [] := by
  rw [ContentFormat.builtin?] at h
  split at h
  · cases h
    rfl
  · split at h
    · cases h
      rfl
    · cases h

/-- What has been replaced in the end are the edits of the content. -/
theorem splices_replaced {e : Editor} {content : Text} {past : History} {x : Marked}
    {answers : List ResolvedImage} {d : Document} (hd : d = Document.parse content)
    (hnodes : (∀ p ∈ x.hashtags, p ∈ d.nodes) ∧ (∀ p ∈ x.mentions, p ∈ d.nodes) ∧
      ∀ p ∈ x.images, p ∈ d.nodes)
    (hid : ∀ p ∈ x.images, imageId e.markers (x.afterLinks e.markers d) p = imageId e.markers d p)
    (hlinks : e.format.links.answer past (x.afterMentions e.markers d) = .ok x.links)
    (hasked : x.images = [] ∨ ∃ resolver, e.images.resolver? = some resolver ∧
      resolver.answer (past ++ [.links])
        (ImageRegistry.distinct (x.images.map (imageId e.markers d))) = .ok answers)
    (hurl : ∀ p ∈ x.images, (urlOf? answers (imageId e.markers d p)).isSome)
    (hbody : (e.compile content past).calls.filterMap Call.body? =
      [(x.afterImages e.markers d answers).html]) :
    Splices e content past x answers (x.afterImages e.markers d answers).replaced := by
  subst hd
  obtain ⟨hhash, hment, himage⟩ := hnodes
  obtain ⟨htile, hjoin⟩ := Forest.parse_tile content
  have houtermost := x.map_fst_replaced_afterImages e.markers (Document.parse content) answers rfl
  have htile' : Slice.Tile 0
      (x.afterImages e.markers (Document.parse content) answers).forest.slices
      content.utf8Size := by
    rw [Marked.forest_afterImages]
    exact htile
  have hmem : ∀ p f, (p, f) ∈ (x.afterImages e.markers (Document.parse content) answers).replaced →
      p ∈ (Document.parse content).nodes ∧
        (x.afterImages e.markers (Document.parse content) answers).replacement? p.id = some f := by
    intro p f hpf
    obtain ⟨q, hq, hr⟩ := List.mem_filterMap.1 hpf
    obtain ⟨g, hg, heq⟩ := Option.map_eq_some_iff.1 hr
    cases heq
    have hreached := Document.mem_nodes_of_reachable hq
    rw [Marked.nodes_afterImages] at hreached
    exact ⟨hreached, hg⟩
  have hsplice : (e.compile content past).calls.filterMap Call.body? = [splice 0 content
      ((x.afterImages e.markers (Document.parse content) answers).replaced.map
        fun (p, f) => p.edit f)] := by
    rw [hbody, Document.html_eq_splice htile', Marked.forest_afterImages]
    rw [show (Document.parse content).forest = Forest.parse content from rfl, hjoin]
  refine { links := hlinks, noLinks := ?_, asked := hasked, nodes := houtermost, fragments := ?_,
           inSource := ?_, apart := ?_, body := hsplice, unmarked := ?_ }
  · intro name hname
    rw [links_of_builtin hname] at hlinks
    exact (Except.ok.inj hlinks).symm
  · intro p f hpf
    obtain ⟨hp, hr⟩ := hmem p f hpf
    exact Marked.expands_of_replacement? hp rfl hhash hment himage hid hurl hr
  · intro p f hpf
    exact Document.slice_in_source (hmem p f hpf).1
  · rw [Document.map_edit_replaced]
    exact Forest.edits_apart htile'
  · intro hnone
    rw [hnone, List.map_eq_nil_iff] at houtermost
    rw [hsplice, houtermost]
    rfl

end Compile

open Compile

/-- **A compile hands to the format the content with the outermost marked nodes replaced, each by
what its own stage makes of it, and with every other byte kept.** -/
theorem Editor.expand_splices {e : Editor} {content : Text} {past : History}
    {sh sm si : Selector} {d : Document}
    (hh : Selector.read e.markers.hashtagSelector = .ok sh)
    (hm : Selector.read e.markers.mentionSelector = .ok sm)
    (hi : Selector.read e.markers.imageSelector = .ok si)
    (h : (e.expand content past).result = .ok d) :
    ∃ links answers edits, Splices e content past
      (Marked.of (Document.parse content) sh sm si links) answers edits := by
  have hbody := body?_compile h
  rw [body?_expand, List.nil_append] at hbody
  rw [expand_of_read hh hm] at h
  obtain ⟨d₃, hd₃, h⟩ := Traced.result_bind_eq_ok.1 h
  rw [links_eq] at hd₃ h
  cases hlinks : e.format.links.answer past (beforeLinks e.markers sh sm content) with
  | error err => simp [hlinks, Except.map] at hd₃
  | ok links =>
    simp only [hlinks, Except.map, Except.ok.injEq] at hd₃
    subst hd₃
    obtain ⟨answers, hasked, hurl, rfl⟩ := images_eq_ok hi h
    rw [Marked.select_images] at hasked hurl hbody
    rw [← Marked.afterMentions_of e.markers sh sm si links content] at hasked hurl hbody hlinks
    have hid := fun p => Marked.imageId_afterLinks e.markers (d := Document.parse content) rfl
      sh sm si links (p := p)
    have hids := List.map_congr_left hid
    refine ⟨links, answers, _, splices_replaced rfl (Marked.mem_nodes_of _ _ _ _ _) hid hlinks ?_
      ?_ hbody⟩
    · rw [← hids]
      exact hasked
    · intro p hp
      rw [← hid p hp]
      exact hurl p hp

/-- A hashtag in a mention, and an image after it. -/
theorem Editor.expand_splices_nested :
    let names : Markers :=
      { tagClass := ['t'], mentionClass := ['m'], imageClass := ['i']
        mentionIdentifier := ['u'], imageIdentifier := ['d'] }
    let host : Host := ⟨.always fun _ => .ok [], .always fun _ => .ok true, .always fun _ => .ok []⟩
    let e : Editor :=
      { Editor.new (InstancePlan.buildWithoutTools { id := [] }) .html host with
        markers := names, images := ⟨some (.always fun _ => .ok [⟨['9'], ['j']⟩])⟩ }
    let content := "x<b class=m u=7>@a<i class=t>#b</i></b><img class=i d=9>".toList
    ∃ x answers edits, Splices e content [] x answers edits ∧ edits.map (·.1.id) = [1, 5] ∧
      splice 0 content (edits.map fun (p, f) => p.edit f) =
        ("x<span role=\"button\" class=\"m\" data-toggle=\"xeUserMenu\" data-user-id=\"7\">@a#b" ++
          "</span><img src=\"j\" class=\"i\" data-id=\"9\" />").toList := by
  intro names host e content
  have hh : Selector.read e.markers.hashtagSelector = .ok [[⟨none, [.cls ['t']]⟩]] := by
    decide +kernel
  have hm : Selector.read e.markers.mentionSelector =
      .ok [[⟨none, [.cls ['m'], .attr ['u'] none]⟩]] := by decide +kernel
  have hi : Selector.read e.markers.imageSelector =
      .ok [[⟨some (.named "img".toList), [.cls ['i'], .attr ['d'] none]⟩]] := by decide +kernel
  obtain ⟨d, hd⟩ := exists_ok_of_toBool
    (show (e.expand content []).result.toBool = true by decide +kernel)
  obtain ⟨links, answers, edits, h⟩ := Editor.expand_splices hh hm hi hd
  obtain rfl : links = [] := h.noLinks "html".toList (by rfl)
  refine ⟨_, answers, edits, h, ?_, ?_⟩
  · have hnodes := congrArg (List.map (·.id)) h.nodes
    rw [List.map_map] at hnodes
    exact hnodes.trans (by decide +kernel)
  · exact List.singleton_inj.1 (h.body.symm.trans (by decide +kernel))

end RichContent
