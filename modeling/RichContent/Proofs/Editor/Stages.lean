/-
The stages of a compile, one after the other: which nodes each stage replaces
and by what, when it succeeds, and which calls it makes.

Each stage looks at the document that the stages before it have left, so its
nodes are the selected ones with nothing replaced around them, and a node's
text contains the text of the fragments inside it.
-/
import RichContent.Editor.Compile
import RichContent.Proofs.Editor.Traced
import RichContent.Proofs.Markup.Replacement

namespace RichContent

open Text

theorem exists_ok_of_toBool {ε α : Type} {x : Except ε α} (h : x.toBool = true) :
    ∃ a, x = .ok a := by
  cases x with
  | error e => cases h
  | ok a => exact ⟨a, rfl⟩

/-- The markup that is handed to the format by a call. -/
def Call.body? : Call → Option Text
  | body content => some content
  | _ => none

/-! ## Many replacements -/

namespace Document

variable (d : Document) (fragments : List (NodeId × Fragment))

theorem replaceAll_eq :
    d.replaceAll fragments = { d with replacements := fragments.reverse ++ d.replacements } := by
  induction fragments generalizing d with
  | nil => rfl
  | cons r rest ih =>
    rw [replaceAll, List.foldl_cons, ← replaceAll, ih]
    simp [replace]

@[simp] theorem nodes_replaceAll : (d.replaceAll fragments).nodes = d.nodes := by
  rw [replaceAll_eq]
  rfl

@[simp] theorem forest_replaceAll : (d.replaceAll fragments).forest = d.forest := by
  rw [replaceAll_eq]

@[simp] theorem original_replaceAll : (d.replaceAll fragments).original = d.original := by
  rw [replaceAll_eq]
  rfl

@[simp] theorem replacements_replaceAll :
    (d.replaceAll fragments).replacements = fragments.reverse ++ d.replacements := by
  rw [replaceAll_eq]

theorem mem_replacedIds_replaceAll (id : NodeId) :
    id ∈ (d.replaceAll fragments).replacedIds ↔ id ∈ fragments.map (·.1) ∨ id ∈ d.replacedIds := by
  simp [replacedIds]

/-- A later stage picks out what an earlier one would, less what has been replaced since. -/
theorem select_replaceAll (s : Selector) :
    (d.replaceAll fragments).select s =
      (d.select s).filter fun p => !p.isWithin (fragments.map (·.1)) := by
  rw [select_eq_filter, original_replaceAll, select_eq_filter d, List.filter_filter]
  apply List.filter_congr
  intro p _
  rw [← Bool.not_or, ← Position.isWithin_append, Position.isWithin_congr p fun id => ?_]
  rw [mem_replacedIds_replaceAll, List.mem_append]

/-- Replaces each of some nodes by what is made of it. -/
def replaceEach (found : List Position) (make : Position → Fragment) : Document :=
  d.replaceAll (found.map fun p => (p.id, make p))

theorem select_replaceEach (found : List Position) (make : Position → Fragment) (s : Selector) :
    (d.replaceEach found make).select s =
      (d.select s).filter fun p => !p.isWithin (found.map (·.id)) := by
  rw [replaceEach, select_replaceAll, List.map_map]
  rfl

/-- Of several fragments for a node the last counts, and any of them before what was there. -/
theorem replacement?_replaceAll (id : NodeId) :
    (d.replaceAll fragments).replacement? id =
      (fragments.reverse.lookup id).or (d.replacement? id) := by
  rw [replacement?, replacements_replaceAll, List.lookup_append]
  rfl

section

variable {d : Document} {found : List Position} {make : Position → Fragment}

theorem mem_replacedIds_replaceEach {id : NodeId} :
    id ∈ (d.replaceEach found make).replacedIds ↔ id ∈ found.map (·.id) ∨ id ∈ d.replacedIds := by
  rw [replaceEach, mem_replacedIds_replaceAll, List.map_map]
  rfl

theorem replacement?_replaceEach {id : NodeId} :
    (d.replaceEach found make).replacement? id =
      ((found.map fun p => (p.id, make p)).reverse.lookup id).or (d.replacement? id) := by
  rw [replaceEach, replacement?_replaceAll]

/-- What is found for a number was made of a node with that number. -/
theorem mem_of_lookup_each {id : NodeId} {f : Fragment}
    (h : (found.map fun p => (p.id, make p)).reverse.lookup id = some f) :
    ∃ p ∈ found, p.id = id ∧ make p = f := by
  obtain ⟨l, r, hsplit, -⟩ := List.lookup_eq_some_iff.1 h
  have hmem : (id, f) ∈ (found.map fun p => (p.id, make p)).reverse := by
    rw [hsplit]
    simp
  obtain ⟨p, hp, heq⟩ := List.mem_map.1 (List.mem_reverse.1 hmem)
  cases heq
  exact ⟨p, hp, rfl, rfl⟩

end

end Document

namespace Compile

/-! ## Hashtags and mentions -/

theorem markerSelector_of_read {t : Text} {s : Selector} (h : Selector.read t = .ok s) :
    markerSelector t = pure s := by
  rw [markerSelector, h]
  rfl

/-- What a hashtag of a document is replaced by. -/
def hashtagAt (m : Markers) (d : Document) (p : Position) : Fragment := hashtag m (d.entity [] p)

/-- What a mention of a document is replaced by. -/
def mentionAt (m : Markers) (d : Document) (p : Position) : Fragment :=
  mention m (d.entity [m.mentionIdentifier] p)

theorem hashtags_of_read {m : Markers} {s : Selector} (h : Selector.read m.hashtagSelector = .ok s)
    (d : Document) :
    hashtags m d = pure (d.replaceEach (d.select s) (hashtagAt m d)) := by
  rw [hashtags, markerSelector_of_read h, Traced.pure_bind, Document.entities, List.map_map]
  rfl

theorem mentions_of_read {m : Markers} {s : Selector} (h : Selector.read m.mentionSelector = .ok s)
    (d : Document) :
    mentions m d = pure (d.replaceEach (d.select s) (mentionAt m d)) := by
  rw [mentions, markerSelector_of_read h, Traced.pure_bind, Document.entities]
  simp only [List.map_map]
  rfl

/-! ## Links -/

theorem links_eq (f : ContentFormat) (d : Document) (past : History) :
    links f d past = ⟨[.links], (f.links.answer past d).map d.replaceAll⟩ := by
  rw [links, Traced.bind_pure_apply, Service.ask]
  cases f.links.answer past d <;> rfl

/-! ## Images -/

/-- The id of an image, which is empty where the attribute has no value. -/
def imageId (m : Markers) (d : Document) (p : Position) : Text :=
  ((d.entity [m.imageIdentifier] p).value? m.imageIdentifier).getD []

/-- The id of an image is that in the source, unless the image has been replaced. -/
theorem imageId_original {m : Markers} {d : Document} {p : Position} (h : p.id ∉ d.replacedIds) :
    imageId m d p = imageId m d.original p := by
  simp only [imageId, Entity.value?, Document.entity, Document.tag?_original d, if_neg h]

/-- What an image of a document is replaced by, given the answers of the resolver. -/
def imageAt (m : Markers) (answers : List ResolvedImage) (d : Document) (p : Position) :
    Fragment :=
  image m (imageId m d p) ((urlOf? answers (imageId m d p)).getD [])

theorem imageFragments_eq_ok {m : Markers} {answers : List ResolvedImage}
    {ids : List (NodeId × Text)} {fragments : List (NodeId × Fragment)}
    (h : imageFragments m answers ids = .ok fragments) :
    (∀ x ∈ ids, (urlOf? answers x.2).isSome) ∧
      fragments = ids.map fun x => (x.1, image m x.2 ((urlOf? answers x.2).getD [])) := by
  induction ids generalizing fragments with
  | nil =>
    cases h
    simp
  | cons x rest ih =>
    obtain ⟨node, id⟩ := x
    rw [imageFragments] at h
    cases hurl : urlOf? answers id with
    | none => simp [hurl] at h
    | some url =>
      cases hrest : imageFragments m answers rest with
      | error e => simp [hurl, hrest, Except.map] at h
      | ok l =>
        obtain ⟨hall, rfl⟩ := ih hrest
        simp only [hurl, hrest, Except.map, Except.ok.injEq] at h
        subst h
        exact ⟨List.forall_mem_cons.2 ⟨by simp [hurl], hall⟩, by simp [hurl]⟩

theorem images_of_read {m : Markers} {s : Selector} (h : Selector.read m.imageSelector = .ok s)
    (registry : ImageRegistry) (d : Document) :
    images m registry d =
      if d.select s = [] then pure d else (do
        let answers ← registry.resolve ((d.select s).map (imageId m d))
        let fragments ← Traced.ofExcept
          (imageFragments m answers ((d.select s).map fun p => (p.id, imageId m d p)))
        pure (d.replaceAll fragments)) := by
  rw [images, markerSelector_of_read h, Traced.pure_bind, Document.entities]
  cases hfound : d.select s with
  | nil => rfl
  | cons p rest =>
    simp only [List.map_cons, List.map_map]
    rfl

/-- Every image that is found has an answer, and is replaced by the picture with its URL. Where
none is found the resolver is not asked; otherwise it is asked for the distinct ids. -/
theorem images_eq_ok {m : Markers} {registry : ImageRegistry} {s : Selector} {d d' : Document}
    {past : History} (hs : Selector.read m.imageSelector = .ok s)
    (h : (images m registry d past).result = .ok d') :
    ∃ answers, (d.select s = [] ∨ ∃ resolver, registry.resolver? = some resolver ∧
        resolver.answer past (ImageRegistry.distinct ((d.select s).map (imageId m d))) =
          .ok answers) ∧
      (∀ p ∈ d.select s, (urlOf? answers (imageId m d p)).isSome) ∧
      d' = d.replaceEach (d.select s) (imageAt m answers d) := by
  rw [images_of_read hs] at h
  split at h
  · rename_i hnone
    cases h
    exact ⟨[], .inl hnone, by simp [hnone], by rw [hnone]; rfl⟩
  · obtain ⟨answers, hresolve, h⟩ := Traced.result_bind_eq_ok.1 h
    obtain ⟨fragments, hfragments, h⟩ := Traced.result_bind_eq_ok.1 h
    obtain ⟨hall, rfl⟩ := imageFragments_eq_ok hfragments
    cases h
    refine ⟨answers, .inr ?_, by simpa using hall, by rw [List.map_map]; rfl⟩
    rw [ImageRegistry.resolve] at hresolve
    cases hr : registry.resolver? with
    | none => simp [hr] at hresolve
    | some resolver =>
      rw [hr] at hresolve
      exact ⟨resolver, rfl, Service.result_ask_eq_ok.1 hresolve⟩

/-- The stage of the images does not call the format. -/
theorem makes_images (m : Markers) (registry : ImageRegistry) (d : Document) :
    Traced.Makes (·.body? = none) (images m registry d) := by
  have hresolve (ids : List Text) : Traced.Makes (·.body? = none) (registry.resolve ids) := by
    rw [ImageRegistry.resolve]
    split
    · exact Traced.makes_ofExcept _
    · refine Traced.makes_ask ?_ _ _
      rfl
  refine Traced.makes_bind (Traced.makes_ofExcept _) fun s => ?_
  split
  · exact Traced.makes_pure d
  · exact Traced.makes_bind (hresolve _) fun answers =>
      Traced.makes_bind (Traced.makes_ofExcept _) fun fragments => Traced.makes_pure _

end Compile

/-! ## All stages -/

/-- What a compile has made of a content before the links are expanded. -/
def Compile.beforeLinks (m : Markers) (hashtag mention : Selector) (content : Text) : Document :=
  let d := Document.parse content
  let d := d.replaceEach (d.select hashtag) (hashtagAt m d)
  d.replaceEach (d.select mention) (mentionAt m d)

variable {e : Editor} {content : Text} {sh sm si : Selector}

/-- Once the selectors are read, the stages succeed if those of the links and images do. -/
theorem Editor.expand_of_read (hh : Selector.read e.markers.hashtagSelector = .ok sh)
    (hm : Selector.read e.markers.mentionSelector = .ok sm) (content : Text) :
    e.expand content =
      Compile.links e.format (Compile.beforeLinks e.markers sh sm content) >>=
        Compile.images e.markers e.images := by
  rw [expand, Compile.hashtags_of_read hh, Traced.pure_bind, Compile.mentions_of_read hm,
    Traced.pure_bind]
  rfl

end RichContent
