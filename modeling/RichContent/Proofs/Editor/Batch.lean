/-
Images are resolved in one batch.

The ids of the marked images are asked for together, each once and in the
order of the content, and not at all if there is none. Each image gets the
URL of the last answer for its own id, so all that an answer does is to give
URLs for ids that were asked for (`Batched`, `images_batched`).
-/
import Mathlib.Data.List.Forall2
import RichContent.Proofs.Editor.Course
import RichContent.Proofs.Editor.Fragments

namespace RichContent

open Text

/-- The ids that the resolver is asked for by a call. -/
def Call.images? : Call → Option (List Text)
  | images ids => some ids
  | _ => none

/-- Each id of the first list is in the second, once, and where it first occurs in the first. -/
structure FirstSeen (ids asked : List Text) : Prop where
  mem : ∀ id, id ∈ asked ↔ id ∈ ids
  nodup : asked.Nodup
  order : asked.Pairwise fun a b => ids.idxOf a < ids.idxOf b

namespace ImageRegistry

theorem mem_firstSeen {seen ids : List Text} {id : Text} :
    id ∈ firstSeen seen ids ↔ id ∈ ids ∧ id ∉ seen := by
  induction ids generalizing seen with
  | nil => simp [firstSeen]
  | cons a ids ih =>
    rw [firstSeen]
    by_cases ha : a ∈ seen
    · rw [if_pos (List.contains_iff_mem.2 ha), ih, List.mem_cons]
      constructor
      · exact fun ⟨hmem, hseen⟩ => ⟨.inr hmem, hseen⟩
      · rintro ⟨rfl | hmem, hseen⟩
        · exact absurd ha hseen
        · exact ⟨hmem, hseen⟩
    · rw [if_neg (by simpa using ha), List.mem_cons, ih, List.mem_cons, List.mem_cons]
      by_cases hid : id = a
      · subst hid
        simp [ha]
      · simp [hid]

theorem nodup_firstSeen (seen ids : List Text) : (firstSeen seen ids).Nodup := by
  induction ids generalizing seen with
  | nil => exact List.nodup_nil
  | cons a ids ih =>
    rw [firstSeen]
    split
    · exact ih seen
    · refine List.nodup_cons.2 ⟨fun hmem => ?_, ih _⟩
      exact (mem_firstSeen.1 hmem).2 List.mem_cons_self

theorem order_firstSeen (seen ids : List Text) :
    (firstSeen seen ids).Pairwise fun a b => ids.idxOf a < ids.idxOf b := by
  induction ids generalizing seen with
  | nil => exact List.Pairwise.nil
  | cons a ids ih =>
    -- what comes later in the list than `a` and is not `a` is one place further back
    have hlater (seen' : List Text) (ha : a ∈ seen') :
        (firstSeen seen' ids).Pairwise fun b c => (a :: ids).idxOf b < (a :: ids).idxOf c := by
      refine (ih seen').imp_of_mem fun {b c} hb hc hlt => ?_
      have hba : a ≠ b := fun h => (mem_firstSeen.1 hb).2 (h ▸ ha)
      have hca : a ≠ c := fun h => (mem_firstSeen.1 hc).2 (h ▸ ha)
      rw [List.idxOf_cons_ne _ hba, List.idxOf_cons_ne _ hca]
      omega
    rw [firstSeen]
    split
    · rename_i ha
      exact hlater seen (List.contains_iff_mem.1 ha)
    · refine List.pairwise_cons.2 ⟨fun b hb => ?_, hlater _ List.mem_cons_self⟩
      have hba : a ≠ b := by
        rintro rfl
        exact (mem_firstSeen.1 hb).2 List.mem_cons_self
      rw [List.idxOf_cons_self, List.idxOf_cons_ne _ hba]
      omega

theorem firstSeen_distinct (ids : List Text) : FirstSeen ids (distinct ids) where
  mem id := by simp [distinct, mem_firstSeen]
  nodup := nodup_firstSeen [] ids
  order := order_firstSeen [] ids

end ImageRegistry

/-- The same editor with another resolver. -/
def Editor.withResolver (e : Editor) (resolver : ImageResolver) : Editor :=
  { e with images := ⟨some resolver⟩ }

namespace Compile

/-! ## The answer that counts -/

/-- The last answer for an id has this URL. -/
def LastAnswer (answers : List ResolvedImage) (id url : Text) : Prop :=
  ∃ before a after, answers = before ++ a :: after ∧ a.key = id ∧ a.url = url ∧
    ∀ b ∈ after, b.key ≠ id

theorem urlOf?_eq_some {answers : List ResolvedImage} {id url : Text} :
    urlOf? answers id = some url ↔ LastAnswer answers id url := by
  rw [urlOf?, Option.map_eq_some_iff]
  constructor
  · rintro ⟨a, hfind, rfl⟩
    obtain ⟨hkey, after, before, hrev, hafter⟩ := List.find?_eq_some_iff_append.1 hfind
    have happ := congrArg List.reverse hrev
    rw [List.reverse_reverse, List.reverse_append, List.reverse_cons, List.append_assoc] at happ
    refine ⟨before.reverse, a, after.reverse, happ, by simpa using hkey, rfl, fun b hb => ?_⟩
    simpa using hafter b (List.mem_reverse.1 hb)
  · rintro ⟨before, a, after, rfl, hkey, rfl, hafter⟩
    refine ⟨a, List.find?_eq_some_iff_append.2
      ⟨by simpa using hkey, after.reverse, before.reverse, by simp, fun b hb => ?_⟩, rfl⟩
    simpa using hafter b (List.mem_reverse.1 hb)

/-- Answers for other ids do not count. -/
theorem urlOf?_filter {answers : List ResolvedImage} {asked : List Text} {id : Text}
    (h : id ∈ asked) : urlOf? (answers.filter (·.key ∈ asked)) id = urlOf? answers id := by
  rw [urlOf?, urlOf?, ← List.filter_reverse, List.find?_filter]
  congr 2
  funext a
  by_cases hkey : a.key = id
  · simp [hkey, h]
  · simp [hkey]

/-- Where no id is answered twice the order of the answers does not count. -/
theorem urlOf?_perm {answers answers' : List ResolvedImage} (h : answers'.Perm answers)
    (hnd : (answers.map (·.key)).Nodup) (id : Text) : urlOf? answers' id = urlOf? answers id := by
  have hone {l : List ResolvedImage} (hl : (l.map (·.key)).Nodup) {url : Text} :
      urlOf? l id = some url ↔ ∃ a ∈ l, a.key = id ∧ a.url = url := by
    rw [urlOf?_eq_some]
    constructor
    · rintro ⟨before, a, after, rfl, hkey, hurl, -⟩
      exact ⟨a, List.mem_append_right _ List.mem_cons_self, hkey, hurl⟩
    · rintro ⟨a, ha, hkey, hurl⟩
      obtain ⟨before, after, rfl⟩ := List.append_of_mem ha
      refine ⟨before, a, after, rfl, hkey, hurl, fun b hb hbkey => ?_⟩
      rw [List.map_append, List.map_cons] at hl
      have htail := (List.nodup_append.1 hl).2.1
      rw [List.nodup_cons, hkey, ← hbkey] at htail
      exact htail.1 (List.mem_map_of_mem hb)
  have hnd' : (answers'.map (·.key)).Nodup := (h.map _).nodup_iff.2 hnd
  apply Option.ext
  intro url
  rw [hone hnd', hone hnd]
  simp only [h.mem_iff]

/-- Answers that differ in the URLs for one id. -/
def DifferAt (id : Text) (answers answers' : List ResolvedImage) : Prop :=
  List.Forall₂ (fun a b => a.key = b.key ∧ (a.key ≠ id → a = b)) answers answers'

theorem urlOf?_differAt {id : Text} {answers answers' : List ResolvedImage}
    (h : DifferAt id answers answers') (k : Text) :
    ((urlOf? answers' k).isSome = (urlOf? answers k).isSome) ∧
      (k ≠ id → urlOf? answers' k = urlOf? answers k) := by
  have hrev : List.Forall₂ (fun a b : ResolvedImage => a.key = b.key ∧ (a.key ≠ id → a = b))
    answers.reverse answers'.reverse := List.forall₂_reverse_iff.2 h
  rw [urlOf?, urlOf?]
  generalize answers.reverse = l at hrev
  generalize answers'.reverse = l' at hrev
  induction hrev with
  | nil => exact ⟨rfl, fun _ => rfl⟩
  | @cons a b l l' hab _ ih =>
    obtain ⟨hkey, heq⟩ := hab
    by_cases hk : a.key = k
    · have hk' : b.key = k := hkey ▸ hk
      simp only [List.find?_cons, hk, hk', BEq.rfl, Option.map_some, Option.isSome_some, true_and]
      intro hne
      rw [heq (hk ▸ hne)]
    · have hk' : b.key ≠ k := hkey ▸ hk
      rw [List.find?_cons_of_neg (by simpa using hk'), List.find?_cons_of_neg (by simpa using hk)]
      exact ih

theorem imageFragments_congr {m : Markers} {answers answers' : List ResolvedImage}
    {ids : List (NodeId × Text)} (h : ∀ x ∈ ids, urlOf? answers' x.2 = urlOf? answers x.2) :
    imageFragments m answers' ids = imageFragments m answers ids := by
  induction ids with
  | nil => rfl
  | cons x ids ih =>
    obtain ⟨hx, hids⟩ := List.forall_mem_cons.1 h
    rw [imageFragments, imageFragments, hx, ih hids]

/-! ## Another resolver -/

variable {e : Editor} {content : Text} {past : History} {x : Marked}
  {resolver resolver' : ImageResolver} {answers answers' : List ResolvedImage}

theorem finds_withResolver (h : Finds e content past x) (resolver : ImageResolver) :
    Finds (e.withResolver resolver) content past x := by
  cases h with
  | intro hh hm hl hi => exact .intro hh hm hl hi

/-- Answers that say the same of the ids that were asked for make the same compile. -/
theorem compile_withResolver (h : Finds e content past x) (hr : e.images.resolver? = some resolver)
    (ha : resolver.answer (past ++ [.links]) (x.asked e.markers content) = .ok answers)
    (ha' : resolver'.answer (past ++ [.links]) (x.asked e.markers content) = .ok answers')
    (hsame : ∀ id ∈ x.asked e.markers content, urlOf? answers' id = urlOf? answers id) :
    (e.withResolver resolver').compile content past = e.compile content past := by
  have hexpand : (e.withResolver resolver').expand content past = e.expand content past := by
    by_cases hne : x.images = []
    · rw [expand_of_finds h, expand_of_finds (finds_withResolver h resolver'),
        Marked.expandImages, Marked.expandImages, if_pos hne, if_pos hne]
      rfl
    · rw [expand_of_answers h hne hr ha,
        expand_of_answers (finds_withResolver h resolver') hne rfl ha']
      have hids : ∀ y ∈ x.images.map fun p =>
          (p.id, imageId e.markers (Document.parse content) p),
          urlOf? answers' y.2 = urlOf? answers y.2 := by
        intro y hy
        obtain ⟨p, hp, rfl⟩ := List.mem_map.1 hy
        apply hsame
        exact ((ImageRegistry.firstSeen_distinct _).mem _).2 (List.mem_map_of_mem hp)
      have hfragments := imageFragments_congr (m := e.markers) hids
      simp only [Editor.withResolver] at hfragments ⊢
      rw [hfragments]
  rw [Editor.compile, Editor.compile, Traced.bind_congr_at hexpand]
  rfl

/-! ## Where the answers show -/

theorem mem_nodes_of_finds (h : Finds e content past x) {p : Position} (hp : p ∈ x.images) :
    p ∈ (Document.parse content).nodes := by
  cases h with
  | intro => exact (Marked.mem_nodes_of _ _ _ _ _).2.2 p hp

/-- A marked image is replaced by the picture with the URL for its id. -/
theorem replacement?_image (h : Finds e content past x) {p : Position} (hp : p ∈ x.images) :
    (x.afterImages e.markers (Document.parse content) answers).replacement? p.id =
      some (image e.markers (imageId e.markers (Document.parse content) p)
        ((urlOf? answers (imageId e.markers (Document.parse content) p)).getD [])) := by
  have hmake : imageAt e.markers answers (x.afterLinks e.markers (Document.parse content)) p =
      image e.markers (imageId e.markers (Document.parse content) p)
        ((urlOf? answers (imageId e.markers (Document.parse content) p)).getD []) := by
    rw [imageAt, imageId_of_finds h hp]
  rw [Marked.afterImages, Document.replacement?_replaceEach, ← hmake]
  cases hlookup : (x.images.map fun q => (q.id, imageAt e.markers answers
      (x.afterLinks e.markers (Document.parse content)) q)).reverse.lookup p.id with
  | none =>
    have hnone := List.lookup_eq_none_iff.1 hlookup
      (p.id, imageAt e.markers answers (x.afterLinks e.markers (Document.parse content)) p)
      (List.mem_reverse.2 (List.mem_map_of_mem hp))
    simp at hnone
  | some f =>
    obtain ⟨-, rfl⟩ := Document.made_of_lookup (mem_nodes_of_finds h hp)
      (fun q hq => mem_nodes_of_finds h hq) hlookup
    rfl

/-- On other nodes the answers have no effect. -/
theorem replacement?_not_image (h : Finds e content past x) {p : Position}
    (hp : p ∈ (Document.parse content).nodes) (hnot : p ∉ x.images) :
    (x.afterImages e.markers (Document.parse content) answers).replacement? p.id =
      (x.afterLinks e.markers (Document.parse content)).replacement? p.id := by
  rw [Marked.afterImages, Document.replacement?_replaceEach]
  cases hlookup : (x.images.map fun q => (q.id, imageAt e.markers answers
      (x.afterLinks e.markers (Document.parse content)) q)).reverse.lookup p.id with
  | none => rfl
  | some f =>
    obtain ⟨hmem, -⟩ := Document.made_of_lookup hp (fun q hq => mem_nodes_of_finds h hq) hlookup
    exact absurd hmem hnot

theorem forall₂_filterMap {α β : Type} {R : β → β → Prop} {l : List α} {f g : α → Option β}
    (h : ∀ a ∈ l, (f a = none ∧ g a = none) ∨ ∃ b c, f a = some b ∧ g a = some c ∧ R b c) :
    List.Forall₂ R (l.filterMap f) (l.filterMap g) := by
  induction l with
  | nil => exact .nil
  | cons a l ih =>
    obtain ⟨ha, hl⟩ := List.forall_mem_cons.1 h
    rcases ha with ⟨hf, hg⟩ | ⟨b, c, hf, hg, hbc⟩
    · rw [List.filterMap_cons_none hf, List.filterMap_cons_none hg]
      exact ih hl
    · rw [List.filterMap_cons_some hf, List.filterMap_cons_some hg]
      exact .cons hbc (ih hl)

/-- The same nodes are replaced, by the same fragments but for the images with this id. -/
def EditsDifferAt (x : Marked) (m : Markers) (content id : Text)
    (edits edits' : List (Position × Fragment)) : Prop :=
  List.Forall₂ (fun a b => a.1 = b.1 ∧
    (a.2 ≠ b.2 → a.1 ∈ x.images ∧ imageId m (Document.parse content) a.1 = id)) edits edits'

theorem replaced_differAt (h : Finds e content past x) {id : Text}
    (hdiffer : DifferAt id answers answers') :
    EditsDifferAt x e.markers content id
      (x.afterImages e.markers (Document.parse content) answers).replaced
      (x.afterImages e.markers (Document.parse content) answers').replaced := by
  have hreachable : (x.afterImages e.markers (Document.parse content) answers').reachable =
      (x.afterImages e.markers (Document.parse content) answers).reachable := by
    rw [Document.reachable_eq_filter, Document.reachable_eq_filter, Marked.nodes_afterImages,
      Marked.nodes_afterImages]
    apply List.filter_congr
    intro p _
    rw [Position.isBelow_congr p fun id => ?_]
    rw [Marked.mem_replacedIds_afterImages, Marked.mem_replacedIds_afterImages]
  rw [Document.replaced, Document.replaced, hreachable]
  apply forall₂_filterMap
  intro p hp
  have hnode := Document.mem_nodes_of_reachable hp
  rw [Marked.nodes_afterImages] at hnode
  by_cases himage : p ∈ x.images
  · rw [replacement?_image h himage, replacement?_image h himage]
    refine .inr ⟨_, _, rfl, rfl, rfl, fun hne => ⟨himage, ?_⟩⟩
    by_contra hid
    exact hne (by rw [(urlOf?_differAt hdiffer _).2 hid])
  · rw [replacement?_not_image h hnode himage, replacement?_not_image h hnode himage]
    cases (x.afterLinks e.markers (Document.parse content)).replacement? p.id with
    | none => exact .inl ⟨rfl, rfl⟩
    | some f => exact .inr ⟨_, _, rfl, rfl, rfl, fun hne => absurd rfl hne⟩

/-- The markup is the content with the replaced nodes edited. -/
theorem html_eq_splice (x : Marked) (e : Editor) (content : Text) (answers : List ResolvedImage) :
    x.html e content answers = splice 0 content
      ((x.afterImages e.markers (Document.parse content) answers).replaced.map
        fun (p, f) => p.edit f) := by
  obtain ⟨htile, hjoin⟩ := Forest.parse_tile content
  have hforest : (x.afterImages e.markers (Document.parse content) answers).forest =
      Forest.parse content := Marked.forest_afterImages _ _ _ _
  rw [Marked.html, Document.html_eq_splice (hforest ▸ htile), hforest, hjoin]

/-! ## What is asked -/

theorem finds_unique {x' : Marked} (h : Finds e content past x) (h' : Finds e content past x') :
    x = x' := by
  cases h with
  | intro hh hm hl hi =>
    cases h' with
    | intro hh' hm' hl' hi' =>
      cases hh.symm.trans hh'
      cases hm.symm.trans hm'
      cases hl.symm.trans hl'
      cases hi.symm.trans hi'
      rfl

theorem finds_of_reaches {calls : List Call} (h : Reaches e content past calls x answers) :
    Finds e content past x := by
  cases h with
  | noImages hx | images hx => exact hx

/-- Making the body and listing the files asks for no images. -/
theorem images?_compile (e : Editor) (content : Text) (past : History) :
    (e.compile content past).calls.filterMap Call.images? =
      (e.expand content past).calls.filterMap Call.images? := by
  have hcourse := e.course_compile content past
  generalize (e.compile content past).calls = calls, (e.compile content past).result = result
    at hcourse
  cases hcourse with
  | stops h => rw [expand_of_stops h]
  | body h | view h | unlisted h | listed h =>
    rw [expand_of_reaches h, List.filterMap_append]
    exact List.append_nil _

theorem images?_of_nil (h : Finds e content past x) (hnil : x.images = []) :
    (e.compile content past).calls.filterMap Call.images? = [] := by
  rw [images?_compile, expand_of_reaches (.noImages h hnil)]
  rfl

theorem images?_of_registered (h : Finds e content past x) (hne : x.images ≠ [])
    (hr : e.images.isRegistered = true) :
    (e.compile content past).calls.filterMap Call.images? = [x.asked e.markers content] := by
  obtain ⟨resolver, hresolver⟩ := Option.isSome_iff_exists.1 hr
  rw [images?_compile]
  cases ha : resolver.answer (past ++ [.links]) (x.asked e.markers content) with
  | error failure =>
    rw [expand_of_stops (.resolver h hne hresolver ha)]
    rfl
  | ok answers =>
    rw [expand_of_answers h hne hresolver ha]
    rfl

/-- Where no nodes are found no images are asked for either. -/
theorem images?_of_not_finds (h : ¬ ∃ x, Finds e content past x) :
    (e.compile content past).calls.filterMap Call.images? = [] := by
  rw [images?_compile]
  rcases reaches_or_stops e content past with
    ⟨calls, x, answers, hreaches⟩ | ⟨calls, err, hstops⟩
  · exact absurd ⟨x, finds_of_reaches hreaches⟩ h
  · rw [expand_of_stops hstops]
    cases hstops with
    | hashtagSelector | mentionSelector | links | imageSelector => rfl
    | noResolver hx | resolver hx | missingImage hx => exact absurd ⟨_, hx⟩ h

/-- The id of a marked image is the value of its attribute. -/
theorem imageId_eq (h : Finds e content past x) {p : Position} (hp : p ∈ x.images) :
    ∃ tag opening children closing, p.node = .element tag opening children closing ∧
      imageId e.markers (Document.parse content) p =
        (tag.value? (lower e.markers.imageIdentifier)).getD [] := by
  cases h with
  | @intro _ _ si =>
    have hmatch := (List.mem_filter.1 (List.mem_filter.1 hp).1).2
    cases htag : (Document.parse content).tag? p with
    | none =>
      rw [Document.isMatch, htag, Selector.holds_none] at hmatch
      cases hmatch
    | some tag =>
      have hid : imageId e.markers (Document.parse content) p =
          (tag.value? (lower e.markers.imageIdentifier)).getD [] := by
        simp [imageId, Document.entity, Entity.value?, htag]
      cases hnode : p.node with
      | text s | raw s =>
        rw [Document.tag?, hnode] at htag
        simp at htag
      | element tag' opening children closing =>
        rw [Document.tag?, hnode] at htag
        cases htag
        exact ⟨tag, opening, children, closing, rfl, hid⟩

/-! ## What comes of the answers -/

/-- A compile that has handed markup to the format has an answer for every image. -/
theorem reaches_of_body (h : Finds e content past x)
    (hbody : (e.compile content past).calls.filterMap Call.body? ≠ []) :
    ∃ calls answers, Reaches e content past calls x answers ∧
      (e.compile content past).calls.filterMap Call.body? = [x.html e content answers] := by
  rcases body?_of_course (e.course_compile content past) with
    ⟨calls, x', answers, hreaches, heq⟩ | hnone
  · obtain rfl := finds_unique h (finds_of_reaches hreaches)
    exact ⟨calls, answers, hreaches, heq⟩
  · exact absurd hnone.2 hbody

theorem body_of_ok {y : Text} (h : (e.compile content past).result = .ok y) :
    (e.compile content past).calls.filterMap Call.body? ≠ [] := by
  have hcourse := e.course_compile content past
  rw [h] at hcourse
  generalize (e.compile content past).calls = calls at hcourse
  cases hcourse with
  | unlisted hreaches | listed hreaches => simp [Call.body?]

theorem lastAnswer_of_reaches {calls : List Call} (h : Reaches e content past calls x answers)
    {p : Position} (hp : p ∈ x.images) :
    ∃ url, LastAnswer answers (imageId e.markers (Document.parse content) p) url ∧
      (x.afterImages e.markers (Document.parse content) answers).replacement? p.id =
        some (image e.markers (imageId e.markers (Document.parse content) p) url) := by
  have hurl : (x.afterImages e.markers (Document.parse content) answers).replacement? p.id = _ :=
    replacement?_image (finds_of_reaches h) hp
  cases h with
  | noImages _ hnil =>
    rw [hnil] at hp
    exact absurd hp List.not_mem_nil
  | images _ _ _ _ hall =>
    obtain ⟨url, hsome⟩ := Option.isSome_iff_exists.1
      (urlOf?_isSome.2 (hall _ (List.mem_map_of_mem hp)))
    rw [hsome] at hurl
    exact ⟨url, urlOf?_eq_some.1 hsome, hurl⟩

/-- With other URLs for one id a compile comes as far, and its markup differs at this id only. -/
theorem differAt_of_body (h : Finds e content past x) (hr : e.images.resolver? = some resolver)
    (ha : resolver.answer (past ++ [.links]) (x.asked e.markers content) = .ok answers)
    (ha' : resolver'.answer (past ++ [.links]) (x.asked e.markers content) = .ok answers')
    {id t : Text} (hdiffer : DifferAt id answers answers')
    (hbody : (e.compile content past).calls.filterMap Call.body? = [t]) :
    ∃ t' edits edits',
      ((e.withResolver resolver').compile content past).calls.filterMap Call.body? = [t'] ∧
      t = splice 0 content (edits.map fun (p, f) => p.edit f) ∧
      t' = splice 0 content (edits'.map fun (p, f) => p.edit f) ∧
      EditsDifferAt x e.markers content id edits edits' := by
  have h' := finds_withResolver h resolver'
  obtain ⟨calls, answers₀, hreaches, heq⟩ := reaches_of_body h (by rw [hbody]; simp)
  obtain rfl : t = x.html e content answers₀ := List.singleton_inj.1 (hbody.symm.trans heq)
  have hbody' {calls' : List Call} {answers₁ : List ResolvedImage}
      (hreaches' : Reaches (e.withResolver resolver') content past calls' x answers₁) :
      ((e.withResolver resolver').compile content past).calls.filterMap Call.body? =
        [x.html e content answers₁] := by
    rcases body?_of_course ((e.withResolver resolver').course_compile content past) with
      ⟨calls'', x', answers', hreaches'', heq'⟩ | hnone
    · rw [heq', (reaches_unique hreaches'' hreaches').2]
      rfl
    · exact absurd ⟨_, _, _, hreaches'⟩ hnone.1
  cases hreaches with
  | noImages _ hnil =>
    refine ⟨_, _, _, hbody' (.noImages h' hnil), html_eq_splice _ _ _ _, html_eq_splice _ _ _ _, ?_⟩
    exact replaced_differAt h .nil
  | images _ hne hr₀ ha₀ hall =>
    cases hr.symm.trans hr₀
    cases ha.symm.trans ha₀
    refine ⟨_, _, _, hbody' (.images h' hne rfl ha' fun id hid => ?_), html_eq_splice _ _ _ _,
      html_eq_splice _ _ _ _, replaced_differAt h hdiffer⟩
    rw [← urlOf?_isSome, (urlOf?_differAt hdiffer id).1]
    exact urlOf?_isSome.2 (hall id hid)

/-! ## The batch -/

/-- How the marked images of a content are resolved. -/
structure Batched (e : Editor) (content : Text) (past : History) (x : Marked) : Prop where
  /-- A bare attribute, or none, makes the empty id. -/
  ids : ∀ p ∈ x.images, ∃ tag opening children closing,
    p.node = .element tag opening children closing ∧
      imageId e.markers (Document.parse content) p =
        (tag.value? (lower e.markers.imageIdentifier)).getD []
  firstSeen : FirstSeen (x.imageIds e.markers content) (x.asked e.markers content)
  unasked : x.images = [] → (e.compile content past).calls.filterMap Call.images? = []
  asked : x.images ≠ [] → e.images.isRegistered = true →
    (e.compile content past).calls.filterMap Call.images? = [x.asked e.markers content]
  /-- Every image becomes one `img` with the URL of the last answer for its own id. -/
  resolved : ∀ y, (e.compile content past).result = .ok y → ∃ answers d,
    (x.images = [] ∨ ∃ resolver, e.images.resolver? = some resolver ∧
      resolver.answer (past ++ [.links]) (x.asked e.markers content) = .ok answers) ∧
    (e.expand content past).result = .ok d ∧
    (e.compile content past).calls.filterMap Call.body? = [d.html] ∧
    ∀ p ∈ x.images, ∃ url f,
      LastAnswer answers (imageId e.markers (Document.parse content) p) url ∧
      d.replacement? p.id = some f ∧ f.IsElement "img".toList
        [("src".toList, url), ("class".toList, e.markers.imageClass),
          ("data-id".toList, imageId e.markers (Document.parse content) p)]
  /-- Answers for ids that were not asked for have no effect. -/
  others : ∀ resolver resolver' answers answers', e.images.resolver? = some resolver →
    resolver.answer (past ++ [.links]) (x.asked e.markers content) = .ok answers →
    resolver'.answer (past ++ [.links]) (x.asked e.markers content) = .ok answers' →
    answers'.filter (·.key ∈ x.asked e.markers content) =
      answers.filter (·.key ∈ x.asked e.markers content) →
    (e.withResolver resolver').compile content past = e.compile content past
  permuted : ∀ resolver resolver' answers answers', e.images.resolver? = some resolver →
    resolver.answer (past ++ [.links]) (x.asked e.markers content) = .ok answers →
    resolver'.answer (past ++ [.links]) (x.asked e.markers content) = .ok answers' →
    answers'.Perm answers → (answers.map (·.key)).Nodup →
    (e.withResolver resolver').compile content past = e.compile content past
  /-- Other URLs for one id change the images with this id and nothing else. -/
  changed : ∀ resolver resolver' answers answers' id t, e.images.resolver? = some resolver →
    resolver.answer (past ++ [.links]) (x.asked e.markers content) = .ok answers →
    resolver'.answer (past ++ [.links]) (x.asked e.markers content) = .ok answers' →
    DifferAt id answers answers' →
    (e.compile content past).calls.filterMap Call.body? = [t] →
    ∃ t' edits edits',
      ((e.withResolver resolver').compile content past).calls.filterMap Call.body? = [t'] ∧
      t = splice 0 content (edits.map fun (p, f) => p.edit f) ∧
      t' = splice 0 content (edits'.map fun (p, f) => p.edit f) ∧
      EditsDifferAt x e.markers content id edits edits'

theorem batched_of_finds (h : Finds e content past x) : Batched e content past x where
  ids _ hp := imageId_eq h hp
  firstSeen := ImageRegistry.firstSeen_distinct _
  unasked := images?_of_nil h
  asked := images?_of_registered h
  resolved y hy := by
    obtain ⟨calls, answers, hreaches, heq⟩ := reaches_of_body h (body_of_ok hy)
    refine ⟨answers, x.afterImages e.markers (Document.parse content) answers, ?_, ?_, heq,
      fun p hp => ?_⟩
    · cases hreaches with
      | noImages _ hnil => exact .inl hnil
      | images _ _ hr ha => exact .inr ⟨_, hr, ha⟩
    · rw [expand_of_reaches hreaches]
    · obtain ⟨url, hurl, hreplaced⟩ := lastAnswer_of_reaches hreaches hp
      exact ⟨url, _, hurl, hreplaced, image_isElement _ _ _⟩
  others resolver resolver' answers answers' hr ha ha' hfilter := by
    refine compile_withResolver h hr ha ha' fun id hid => ?_
    rw [← urlOf?_filter hid, hfilter, urlOf?_filter hid]
  permuted resolver resolver' answers answers' hr ha ha' hperm hnd :=
    compile_withResolver h hr ha ha' fun id _ => urlOf?_perm hperm hnd id
  changed _ _ _ _ _ _ hr ha ha' hdiffer hbody := differAt_of_body h hr ha ha' hdiffer hbody

end Compile

open Compile

/-- **The images of a content are resolved with one call for their distinct ids, and each gets the
last URL for its own id.** Where a selector is not read or the links fail, none is asked for. -/
theorem Editor.images_batched (e : Editor) (content : Text) (past : History) :
    (∀ x, Finds e content past x → Batched e content past x) ∧
    ((¬ ∃ x, Finds e content past x) →
      (e.compile content past).calls.filterMap Call.images? = []) :=
  ⟨fun _ h => batched_of_finds h, images?_of_not_finds⟩

/-- Four images: one in a hashtag, one with a bare attribute, two with one id, which is answered
twice. An answer for another id can go, answers without repetitions can be turned around, and other
URLs for the id that is there twice change these two images at most. -/
theorem Editor.images_batched_repeated :
    let names : Markers :=
      { tagClass := ['t'], mentionClass := ['m'], imageClass := ['i']
        mentionIdentifier := ['u'], imageIdentifier := ['d'] }
    let host : Host := ⟨.always fun _ => .ok [], .always fun _ => .ok true, .always fun _ => .ok []⟩
    let e : Editor :=
      { Editor.new (InstancePlan.buildWithoutTools { id := [] }) .html host with
        markers := names
        images := ⟨some (.always fun _ =>
          .ok [⟨['2'], ['o']⟩, ⟨['9'], ['x']⟩, ⟨[], ['u']⟩, ⟨['2'], ['v']⟩])⟩ }
    let once : Editor := e.withResolver (.always fun _ => .ok [⟨['2'], ['v']⟩, ⟨[], ['u']⟩])
    let unread : Editor := { e with markers := { names with tagClass := ['>'] } }
    let content :=
      "<img class=i d=2><b class=t><img class=i d=7></b><img class=i d><img class=i d=2>".toList
    ∃ x, Finds e content [] x ∧ x.images.map (·.id) = [0, 3, 4] ∧
      (e.compile content []).calls.filterMap Call.images? = [[['2'], []]] ∧
      (e.compile content []).calls.filterMap Call.body? =
        [("<img src=\"v\" class=\"i\" data-id=\"2\" /><a href=\"#\" class=\"t\">#</a>" ++
          "<img src=\"u\" class=\"i\" data-id=\"\" /><img src=\"v\" class=\"i\" data-id=\"2\" />").toList] ∧
      (∃ y answers, ∃ d : Document, (e.compile content []).result = .ok y ∧ ∀ p ∈ x.images, ∃ url f,
        LastAnswer answers (imageId names (Document.parse content) p) url ∧
        d.replacement? p.id = some f ∧ f.IsElement "img".toList
          [("src".toList, url), ("class".toList, ['i']),
            ("data-id".toList, imageId names (Document.parse content) p)]) ∧
      (e.withResolver (.always fun _ =>
        .ok [⟨['2'], ['o']⟩, ⟨[], ['u']⟩, ⟨['2'], ['v']⟩])).compile content [] =
          e.compile content [] ∧
      (once.withResolver (.always fun _ => .ok [⟨[], ['u']⟩, ⟨['2'], ['v']⟩])).compile content [] =
        once.compile content [] ∧
      (∃ t edits edits', (e.compile content []).calls.filterMap Call.body? = [t] ∧
        t = splice 0 content (edits.map fun (p, f) => p.edit f) ∧
        EditsDifferAt x names content ['2'] edits edits') ∧
      (unread.compile content []).calls.filterMap Call.images? = [] := by
  intro names host e once unread content
  have hh : Selector.parse e.markers.hashtagSelector = .ok [[⟨none, [.cls ['t']]⟩]] := by
    decide +kernel
  have hm : Selector.parse e.markers.mentionSelector =
      .ok [[⟨none, [.cls ['m'], .attr ['u'] none]⟩]] := by decide +kernel
  have hi : Selector.parse e.markers.imageSelector =
      .ok [[⟨some (.named "img".toList), [.cls ['i'], .attr ['d'] none]⟩]] := by decide +kernel
  have hfinds : Finds e content [] _ := .intro hh hm rfl hi
  generalize hx : Marked.of (Document.parse content) _ _ _ _ = x at hfinds
  have himages : x.images.map (·.id) = [0, 3, 4] := by
    rw [← hx]
    decide +kernel
  have hasked : x.asked names content = [['2'], []] := by
    rw [← hx]
    decide +kernel
  have hne : x.images ≠ [] := by
    intro hnil
    rw [hnil] at himages
    cases himages
  have hb := (Editor.images_batched e content []).1 x hfinds
  have hb' := (Editor.images_batched once content []).1 x (finds_withResolver hfinds _)
  have hunread : ¬ ∃ x, Finds unread content [] x := by
    rintro ⟨x, ⟨hbad, -, -, -⟩⟩
    have hrefused : (Selector.parse unread.markers.hashtagSelector).toBool = false := by
      decide +kernel
    rw [hbad] at hrefused
    cases hrefused
  obtain ⟨y, hy⟩ := exists_ok_of_toBool
    (show (e.compile content []).result.toBool = true by decide +kernel)
  obtain ⟨answers, d, -, -, hbody, hlast⟩ := hb.resolved y hy
  have hdiffer : DifferAt ['2'] [⟨['2'], ['o']⟩, ⟨['9'], ['x']⟩, ⟨[], ['u']⟩, ⟨['2'], ['v']⟩]
      [⟨['2'], ['o']⟩, ⟨['9'], ['x']⟩, ⟨[], ['u']⟩, ⟨['2'], ['w']⟩] := by
    simp [DifferAt]
  obtain ⟨-, edits, edits', -, ht, -, hedits⟩ :=
    hb.changed _ (.always fun _ => .ok _) _ _ _ _ rfl rfl rfl hdiffer hbody
  refine ⟨x, hfinds, himages, ?_, by decide +kernel, ⟨y, answers, d, hy, hlast⟩, ?_, ?_,
    ⟨_, edits, edits', hbody, ht, hedits⟩, (Editor.images_batched unread content []).2 hunread⟩
  · rw [hb.asked hne rfl]
    exact congrArg (fun ids => [ids]) hasked
  · refine hb.others _ (.always fun _ => .ok _) _ _ rfl rfl rfl ?_
    rw [show x.asked e.markers content = [['2'], []] from hasked]
    decide
  · refine hb'.permuted _ (.always fun _ => .ok _) _ _ rfl rfl rfl ?_ (by decide)
    exact List.Perm.swap _ _ []

end RichContent
