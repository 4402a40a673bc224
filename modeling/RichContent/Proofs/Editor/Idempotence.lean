/-
Compiling what a compile has written changes nothing.

The second compile cuts what was written into the pieces that the first one
has kept or put in, and picks out the hashtags and images that the first one
has put in and nothing else (`Settled`). It asks the resolver for the same ids,
so each of them is replaced by what it is already (`Editor.compile_compile`).

Only a tag that is never finished can come between: a value that it leaves
open hides what is put in, and the quotes of that close the value
(`Editor.compile_compile_hidden`).
-/
import RichContent.Proofs.Editor.Batch
import RichContent.Proofs.Editor.Settled

namespace RichContent

open Text

/-- Asked for the same ids again, the resolver gives each of them the same URL. -/
def ImageResolver.Consistent (resolver : ImageResolver) : Prop :=
  ∀ past past' ids answers, resolver.answer past ids = .ok answers →
    ∃ answers', resolver.answer past' ids = .ok answers' ∧
      ∀ id ∈ ids, Compile.urlOf? answers' id = Compile.urlOf? answers id

theorem ImageResolver.consistent_always (answer : List Text → Except Failure (List ResolvedImage)) :
    Consistent (.always answer) :=
  fun _ _ _ answers h => ⟨answers, h, fun _ _ => rfl⟩

namespace Compile

/-! ## What is put in, and where -/

/-- Is byte `b` of a content inside of a quoted value, for a scan for the end of the start tag
that begins at byte `a`? -/
def hides (content : Text) (a b : Nat) : Bool :=
  Lexeme.inValue none false (takeBytes (b - (a + 2)) (dropBytes (a + 2) content))

/-- No node that is expanded begins inside of a quoted value that a start tag before it, which is
kept, leaves open. -/
def Steady (content : Text) : Prop :=
  ∀ q ∈ (Document.parse content).nodes, q.isWithin (marked content).ids = false →
    ∀ a ∈ q.node.attempt?, ∀ p ∈ (marked content).outermost (Document.parse content),
      a + 2 ≤ p.node.start → hides content a p.node.start = false

instance (content : Text) : Decidable (Steady content) :=
  inferInstanceAs (Decidable (∀ q ∈ (Document.parse content).nodes,
    q.isWithin (marked content).ids = false → ∀ a ∈ q.node.attempt?,
      ∀ p ∈ (marked content).outermost (Document.parse content),
        a + 2 ≤ p.node.start → hides content a p.node.start = false))

/-- A node that is expanded begins at the byte. -/
def CutAt (content : Text) (b : Nat) : Prop :=
  ∃ p ∈ (marked content).outermost (Document.parse content), p.node.start = b

section

variable {e : Editor} {content : Text} {past : History} {calls : List Call}
  {answers : List ResolvedImage} {p : Position} {f : Fragment}

theorem clear_of_steady (h : Steady content) {q : Position}
    (hq : q ∈ (Document.parse content).nodes) (hkept : q.isWithin (marked content).ids = false)
    {a : Nat} (ha : q.node.attempt? = some a) : Clear content (CutAt content) a := by
  rintro u body hsource hsize w r rfl ⟨p, hp, hstart⟩
  have hvalue := h q hq hkept a ha p hp (by omega)
  have hw : p.node.start - (a + 2) = w.utf8Size := by omega
  have hdrop := dropBytes_append u (w ++ r) 0
  have htake := takeBytes_append w r 0
  rw [Nat.add_zero, dropBytes_zero] at hdrop
  rw [Nat.add_zero, takeBytes_zero, List.append_nil] at htake
  rw [hides, hw, hsource, ← hsize, hdrop, htake] at hvalue
  exact hvalue

/-- What a compile has put in the place of a node is what the stage of the node makes of it. -/
theorem expands_of_reaches {x : Marked} (h : Reaches e content past calls x answers)
    (hpf : (p, f) ∈
      (x.afterImages e.markers (Document.parse content) answers).replaced) :
    p ∈ (Document.parse content).nodes ∧
      x.Expands e.markers (Document.parse content) answers p f := by
  have hfinds := finds_of_reaches h
  obtain ⟨q, hq, hr⟩ := List.mem_filterMap.1 hpf
  obtain ⟨g, hg, heq⟩ := Option.map_eq_some_iff.1 hr
  cases heq
  have hp := Document.mem_nodes_of_reachable hq
  rw [Marked.nodes_afterImages] at hp
  refine ⟨hp, ?_⟩
  have hnodes : (∀ q ∈ x.hashtags, q ∈ (Document.parse content).nodes) ∧
      (∀ q ∈ x.mentions, q ∈ (Document.parse content).nodes) ∧
      ∀ q ∈ x.images, q ∈ (Document.parse content).nodes := by
    cases hfinds
    exact Marked.mem_nodes_of _ _ _ _ _
  refine Marked.expands_of_replacement? hp rfl hnodes.1 hnodes.2.1 hnodes.2.2
    (fun q hq => imageId_of_finds hfinds hq) (fun q hq => ?_) hg
  obtain ⟨url, hurl, -⟩ := lastAnswer_of_reaches h hq
  rw [urlOf?_eq_some.2 hurl]
  rfl

theorem expansion_of_expands
    (h : (marked content).Expands {} (Document.parse content) answers p f) :
    Expansion answers f := by
  cases h with
  | hashtag => exact .hashtag _
  | mention => exact .mention _
  | link hlink => cases hlink
  | image _ hurl => exact .image hurl

/-- The document that a compile with the default markers makes of a content. -/
def expanded (content : Text) (answers : List ResolvedImage) : Document :=
  (marked content).afterImages {} (Document.parse content) answers

theorem forest_expanded (content : Text) (answers : List ResolvedImage) :
    (expanded content answers).forest = Forest.parse content :=
  Marked.forest_afterImages _ _ _ _

theorem mem_replacedIds_expanded (content : Text) (answers : List ResolvedImage) (id : NodeId) :
    id ∈ (expanded content answers).replacedIds ↔ id ∈ (marked content).ids := by
  rw [expanded, Marked.mem_replacedIds_afterImages]
  simp [Document.replacedIds, Document.parse]

theorem map_fst_replaced_expanded (content : Text) (answers : List ResolvedImage) :
    (expanded content answers).replaced.map (·.1) =
      (marked content).outermost (Document.parse content) :=
  Marked.map_fst_replaced_afterImages _ {} _ answers rfl

section

variable {q : Position}

theorem reachable_expanded (content : Text) (answers : List ResolvedImage) :
    (expanded content answers).reachable =
      (Forest.parse content).reached (expanded content answers).replacement? 0 [] := by
  rw [← forest_expanded content answers]
  rfl

theorem mem_nodes_of_reached
    (h : q ∈ (Forest.parse content).reached (expanded content answers).replacement? 0 []) :
    q ∈ (Document.parse content).nodes :=
  (Forest.walk_sublist _ _ _ _).subset h

/-- A node that is reached and not replaced is not within one that is. -/
theorem not_isWithin_of_reached
    (h : q ∈ (Forest.parse content).reached (expanded content answers).replacement? 0 [])
    (hnone : (expanded content answers).replacement? q.id = none) :
    q.isWithin (marked content).ids = false := by
  rw [← reachable_expanded, Document.reachable_eq_filter] at h
  rw [← Position.isWithin_congr q (mem_replacedIds_expanded content answers), Position.isWithin,
    Bool.or_eq_false_iff]
  exact ⟨by simpa using Document.replacement?_eq_none.1 hnone,
    by simpa using (List.mem_filter.1 h).2⟩

theorem elementsOnly_expanded (content : Text) (answers : List ResolvedImage) :
    Forest.ElementsOnly (expanded content answers).replacement?
      ((Forest.parse content).reached (expanded content answers).replacement? 0 []) := by
  intro q hq hsome
  rw [Document.isSome_replacement?, decide_eq_true_eq, mem_replacedIds_expanded] at hsome
  obtain ⟨tag, htag, -⟩ := exists_marked_tag (mem_nodes_of_reached hq) hsome
  rw [htag]
  rfl

end

section

variable {l : List Stretch}

theorem keepsUnmarked_of_cut (h : Forest.Cut (expanded content answers).replacement? 0 []
    (Forest.parse content) (Piece.all 0 content) l) : KeepsUnmarked l := by
  intro q hmem tag htag
  rcases h.kept q hmem with ⟨hnone, -⟩ | ⟨p, hp, hnone, hsame, -⟩
  · rw [hnone] at htag
    cases htag
  · exact unmarked_of_not_isWithin (mem_nodes_of_reached hp) (not_isWithin_of_reached hp hnone)
      (hsame ▸ htag)

theorem steady_of_cut (hs : Steady content) (h : Forest.Cut (expanded content answers).replacement?
      0 [] (Forest.parse content) (Piece.all 0 content) l)
    (hreplaced : l.filterMap Stretch.replaced? = (expanded content answers).replaced)
    (hfragments : ∀ r ∈ (expanded content answers).replaced, Expansion answers r.2) :
    Stretch.Steady content (CutAt content) l := by
  refine ⟨fun p run f hmem => ?_, fun q hmem a ha => ?_⟩
  · have hpf : (p, f) ∈ (expanded content answers).replaced := by
      rw [← hreplaced]
      exact List.mem_filterMap.2 ⟨_, hmem, rfl⟩
    obtain ⟨hrun, hfirst⟩ := h.swapped p run f hmem
    have hexpansion := hfragments _ hpf
    have houter : p ∈ (marked content).outermost (Document.parse content) := by
      rw [← map_fst_replaced_expanded content answers]
      exact List.mem_map_of_mem hpf
    exact ⟨hrun, hfirst, ⟨p, houter, rfl⟩, hexpansion.fits, hexpansion.closed⟩
  · rcases h.kept q hmem with ⟨-, hnone⟩ | ⟨p, hp, hnone, -, hattempt⟩
    · rw [hnone] at ha
      cases ha
    · exact clear_of_steady hs (mem_nodes_of_reached hp) (not_isWithin_of_reached hp hnone)
        (hattempt ▸ ha)

end

/-- **What a compile has written is cut into the pieces that were kept, none of which has a mark,
and the pieces of the fragments that were put in.** -/
theorem relexed_of_steady (hs : Steady content)
    (hfragments : ∀ r ∈ (expanded content answers).replaced, Expansion answers r.2) :
    ∃ l, Relexed l (Piece.all 0 (expanded content answers).html) ∧ KeepsUnmarked l ∧
      l.filterMap Stretch.replaced? = (expanded content answers).replaced := by
  obtain ⟨l, hcut⟩ :=
    (Forest.grown_parse content).exists_cut 0 [] (elementsOnly_expanded content answers)
  have hreplaced : l.filterMap Stretch.replaced? = (expanded content answers).replaced := by
    rw [hcut.nodes, ← reachable_expanded]
    rfl
  have hsteady := steady_of_cut hs hcut hreplaced hfragments
  have hrelexed := Stretch.relexed_all hsteady (u := []) rfl rfl hcut.pieces 0
  rw [hcut.html, ← forest_expanded content answers, ← Document.write_eq] at hrelexed
  exact ⟨l, hrelexed, keepsUnmarked_of_cut hcut, hreplaced⟩

end

/-! ## The images -/

/-- The id of an image, for the tag of an image. -/
def imageIdOf (tag : StartTag) : Option Text :=
  if imageMark.holds tag then some ((tag.value? "data-id".toList).getD []) else none

/-- The ids of the images among some pieces. -/
def imageIds (ps : List Piece) : List Text := (ps.filterMap Piece.tag?).filterMap imageIdOf

section

variable {content : Text} {answers : List ResolvedImage} {p : Position} {f : Fragment}

theorem imageIds_append (ps qs : List Piece) :
    imageIds (ps ++ qs) = imageIds ps ++ imageIds qs := by
  simp [imageIds]

theorem imageIds_of_unmarked {q : Piece} (h : ∀ tag, q.tag? = some tag → Unmarked tag) :
    imageIds [q] = [] := by
  cases hq : q.tag? with
  | none => rw [imageIds, List.filterMap_cons_none hq]; rfl
  | some tag =>
    have hid : imageIdOf tag = none := if_neg (by rw [(h tag hq).image]; exact Bool.false_ne_true)
    rw [imageIds, List.filterMap_cons_some hq]
    exact List.filterMap_cons_none hid

/-- The ids among the pieces of what was written are those among the pieces that were put in. -/
theorem imageIds_of_relexed {l : List Stretch} {ps : List Piece} (h : Relexed l ps)
    (hkept : KeepsUnmarked l) {id? : Position → Option Text}
    (hswapped : ∀ r ∈ l.filterMap Stretch.replaced?, ∀ start,
      imageIds (Piece.all start r.2.html) = (id? r.1).toList) :
    imageIds ps = (l.filterMap Stretch.replaced?).filterMap fun r => id? r.1 := by
  induction h with
  | nil => rfl
  | @kept q q' l ps htag _ ih =>
    have hnone := imageIds_of_unmarked fun tag hq' =>
      hkept q List.mem_cons_self tag (htag.symm.trans hq')
    have hrest := ih hkept.of_cons hswapped
    rw [← List.singleton_append, imageIds_append, hnone, hrest]
    rfl
  | @swapped p run f l ps start _ ih =>
    obtain ⟨hf, hswapped⟩ := List.forall_mem_cons.1 hswapped
    have hrest := ih hkept.of_cons hswapped
    have hcons : (Stretch.swapped p run f :: l).filterMap Stretch.replaced? =
        (p, f) :: l.filterMap Stretch.replaced? := rfl
    rw [imageIds_append, hf start, hrest, hcons, List.filterMap_cons]
    cases id? p <;> rfl

/-- The id of a node that is expanded, if it is expanded as an image. -/
def markedId? (content : Text) (p : Position) : Option Text :=
  if p ∈ (marked content).images then some (imageId {} (Document.parse content) p) else none

theorem imageIds_marked (content : Text) : (marked content).imageIds {} content =
    (Document.parse content).nodes.filterMap (markedId? content) := by
  have himages : (marked content).images =
      (Document.parse content).nodes.filter (· ∈ (marked content).images) := by
    have hfilter : (marked content).images = ((Document.parse content).nodes.filter
        ((Document.parse content).isMatch [[imageMark]])).filter _ := rfl
    rw [List.filter_filter] at hfilter
    refine hfilter.trans (List.filter_congr fun p hp => ?_)
    rw [hfilter, Bool.eq_iff_iff, decide_eq_true_eq, List.mem_filter, and_iff_right hp]
  rw [Marked.imageIds, himages, ← List.filterMap_eq_map, List.filterMap_filter]
  refine List.filterMap_congr fun p _ => ?_
  simp only [markedId?, decide_eq_true_eq, Function.comp_apply]

/-- An image is written with its id, and nothing else is written as an image. -/
theorem imageIds_of_expands (h : (marked content).Expands {} (Document.parse content) answers p f)
    (start : Nat) : imageIds (Piece.all start f.html) = (markedId? content p).toList := by
  have hnot {ids : List Position} (hmem : p ∈ ids) (hids : p ∈ (marked content).images →
      p.isWithin (ids.map (·.id)) = false) : p ∉ (marked content).images :=
    fun himage => Position.not_mem_of_isWithin (hids himage) (List.mem_map_of_mem hmem)
  have hparts (himage : p ∈ (marked content).images) := (mem_images.1 himage).2
  simp only [Position.isWithin_append, Bool.or_eq_false_iff] at hparts
  rw [markedId?]
  cases h with
  | hashtag hmem =>
    rw [if_neg (hnot hmem fun himage => (hparts himage).1), hashtagAt, (hashtag_pieces _).2]
    rfl
  | mention hmem =>
    rw [if_neg (hnot hmem fun himage => (hparts himage).2), mentionAt, (mention_pieces _).2]
    rfl
  | link hlink => cases hlink
  | image hmem =>
    rw [if_pos hmem, (image_pieces _ _).2]
    rfl

/-- An image has nothing in it, so no image is below another. -/
theorem mem_outermost_of_image (hp : p ∈ (marked content).images) :
    p ∈ (marked content).outermost (Document.parse content) := by
  obtain ⟨⟨hnode, hany⟩, hwithin⟩ := mem_images.1 hp
  have himages : p.isBelow ((marked content).images.map (·.id)) = false := by
    refine Document.isBelow_of_bare hnode (Option.isSome_of_any hany) fun q hq hid => ?_
    obtain ⟨q', hq', heq⟩ := List.mem_map.1 hid
    obtain ⟨⟨hnode', hany'⟩, -⟩ := mem_images.1 hq'
    obtain rfl := Document.eq_of_id hnode' hq heq
    obtain ⟨tag, htag, hholds⟩ := (Option.any_eq_true _ _).1 hany'
    have hname : lower tag.name = "img".toList := by
      simp only [imageMark, Compound.holds, Option.all_some, TypeSelector.holds, Bool.and_eq_true,
        beq_iff_eq] at hholds
      exact hholds.1
    have hvoid : lower tag.name ∈ Piece.voidElements := by
      rw [hname]
      decide
    rw [(Forest.grown_parse content).children_eq_nil (Piece.lexed_of_all 0 content) hq htag hvoid]
    exact fun m hm => absurd hm List.not_mem_nil
  rw [Marked.outermost, List.mem_filter, ids_marked, Position.isBelow_append, himages,
    (Bool.or_eq_false_iff.1 hwithin).2]
  have hmem : p.id ∈ (marked content).images.map (·.id) := List.mem_map_of_mem hp
  exact ⟨hnode, by simp [hmem]⟩

/-- What a compile has written has the images of the content, in their order. -/
theorem imageIds_of_steady (hs : Steady content)
    (hexpands : ∀ r ∈ (expanded content answers).replaced,
      (marked content).Expands {} (Document.parse content) answers r.1 r.2) :
    imageIds (Piece.all 0 (expanded content answers).html) =
      (marked content).imageIds {} content := by
  obtain ⟨l, hrelexed, hkept, hreplaced⟩ :=
    relexed_of_steady hs fun r hr => expansion_of_expands (hexpands r hr)
  have hids := imageIds_of_relexed hrelexed hkept fun r hr =>
    imageIds_of_expands (hexpands r (hreplaced ▸ hr))
  calc imageIds (Piece.all 0 (expanded content answers).html)
    _ = ((expanded content answers).replaced.map (·.1)).filterMap (markedId? content) := by
      rw [hids, hreplaced, List.filterMap_map]
      rfl
    _ = (Document.parse content).nodes.filterMap (markedId? content) := by
      rw [map_fst_replaced_expanded, Marked.outermost, List.filterMap_filter]
      refine List.filterMap_congr fun p _ => ?_
      split
      · rfl
      · rename_i hout
        rw [markedId?, if_neg]
        exact fun himage => hout (List.mem_filter.1 (mem_outermost_of_image himage)).2
    _ = (marked content).imageIds {} content := (imageIds_marked content).symm

/-! ## What has been written, compiled -/

/-- What is settled has no mentions, and no element is below its hashtags and images. -/
theorem bare_of_settled (h : SettledForest answers (Forest.parse content)) :
    (marked content).mentions = [] ∧ ∀ p ∈ (Document.parse content).nodes,
      p.node.tag?.isSome = true → p.isBelow (marked content).ids = false := by
  refine ⟨List.eq_nil_iff_forall_not_mem.2 fun p hp => ?_, fun p hp htag => ?_⟩
  · obtain ⟨⟨hnode, hany⟩, -⟩ := mem_mentions.1 hp
    obtain ⟨tag, htag, hholds⟩ := (Option.any_eq_true _ _).1 hany
    rw [(h 0 [] p hnode).not_mention htag] at hholds
    cases hholds
  · refine Document.isBelow_of_bare hp htag fun q hq hid => ?_
    obtain ⟨tag, hqtag, hmarked⟩ := exists_marked_tag hq hid
    exact (h 0 [] q hq).bare hqtag hmarked

theorem imageId_parse {tag : StartTag} (h : p.node.tag? = some tag) :
    imageId {} (Document.parse content) p = (tag.value? "data-id".toList).getD [] := by
  rw [imageId, Entity.value?, Document.entity, tag?_parse, h]
  rfl

/-- Every image of what is settled is expanded. -/
theorem mem_images_of_settled (h : SettledForest answers (Forest.parse content))
    (hp : p ∈ (Document.parse content).nodes) :
    p ∈ (marked content).images ↔ p.node.tag?.any imageMark.holds = true := by
  rw [mem_images, and_iff_right hp]
  refine ⟨fun himage => himage.1, fun hany => ⟨hany, ?_⟩⟩
  obtain ⟨hmentions, hbelow⟩ := bare_of_settled h
  have hout := hbelow p hp (Option.isSome_of_any hany)
  rw [ids_marked, Position.isBelow_append, Bool.or_eq_false_iff] at hout
  rw [Position.isWithin, hout.1, Bool.or_false, decide_eq_false_iff_not, hmentions, List.map_nil,
    List.append_nil]
  intro hid
  obtain ⟨q, hq, heq⟩ := List.mem_map.1 hid
  obtain ⟨hqnode, hqany⟩ := mem_hashtags.1 hq
  obtain rfl := Document.eq_of_id hqnode hp heq
  obtain ⟨tag, s, hnode, id, url, rfl, -⟩ := (h 0 [] q hp).isImage hany
  rw [hnode] at hqany
  cases (imageTag_holds id url).1.symm.trans hqany

theorem imageIds_of_settled (h : SettledForest answers (Forest.parse content)) :
    (marked content).imageIds {} content = imageIds (Piece.all 0 content) := by
  rw [imageIds_marked, imageIds, ← (Forest.grown_parse content).tags 0 [], List.filterMap_filterMap]
  refine List.filterMap_congr fun p hp => ?_
  rw [markedId?]
  cases htag : p.node.tag? with
  | none => rw [if_neg (by rw [mem_images_of_settled h hp, htag]; simp)]; rfl
  | some tag =>
    rw [Option.bind_some, imageIdOf, imageId_parse htag]
    simp only [mem_images_of_settled h hp, htag, Option.any_some]

theorem html_hashtag_congr {e e' : Entity} (h : dropMark '#' e.text = dropMark '#' e'.text) :
    (hashtag {} e).html = (hashtag {} e').html := by
  rw [hashtag_html_eq, hashtag_html_eq, h]

/-- What takes the place of a node of what is settled is what is there. -/
theorem html_of_expands (h : SettledForest answers (Forest.parse content))
    (hp : p ∈ (Document.parse content).nodes)
    (hf : (marked content).Expands {} (Document.parse content) answers p f) :
    f.html = Slice.join p.node.slices := by
  cases hf with
  | hashtag hmem =>
    obtain ⟨tag, s, t, c, hnode, -, -, e, hdecode, hwritten⟩ :=
      (h 0 [] p hp).isHashtag (mem_hashtags.1 hmem).2
    have htext : ((Document.parse content).entity [] p).text = '#' :: dropMark '#' e.text := by
      rw [← hdecode]
      simp [Document.entity, Document.textOf, hnode, Node.write, Forest.writeThen, View.plain,
        Document.replacement?, Document.parse]
    have hword := congrArg (dropMark '#') htext
    rw [hashtagAt, html_hashtag_congr hword, ← hwritten, hnode]
    simp [Node.slices, Forest.slices]
  | mention hmem =>
    rw [(bare_of_settled h).1] at hmem
    exact absurd hmem List.not_mem_nil
  | link hlink => cases hlink
  | @image url hmem hurl =>
    obtain ⟨tag, s, hnode, id, url', rfl, hurl', hwritten⟩ :=
      (h 0 [] p hp).isImage ((mem_images_of_settled h hp).1 hmem)
    have htag : p.node.tag? = some (imageTag id url') := by
      rw [hnode]
      rfl
    have hid : imageId {} (Document.parse content) p = id := by
      rw [imageId_parse htag, value?_imageTag]
      rfl
    rw [hid] at hurl ⊢
    cases hurl.symm.trans hurl'
    rw [hnode, ← hwritten]
    simp [Node.slices, Forest.slices]

theorem settled_of_steady (hs : Steady content)
    (hfragments : ∀ r ∈ (expanded content answers).replaced, Expansion answers r.2) :
    SettledForest answers (Forest.parse (expanded content answers).html) := by
  obtain ⟨l, hrelexed, hkept, hreplaced⟩ := relexed_of_steady hs hfragments
  apply settledForest_grow
  apply settledRun_of_relexed hrelexed hkept
  rw [hreplaced]
  exact hfragments

end

section

variable {e : Editor} {content y : Text} {past : History} {calls : List Call}
  {answers answers' : List ResolvedImage}

/-- With a format that changes nothing and no files to list, a compile that succeeds has expanded
the entities, and that is what it has written. -/
theorem reaches_of_ok (hf : e.format = .html) (hm : e.markers = {}) (hfiles : e.inst.files = [])
    (h : (e.compile content past).result = .ok y) : ∃ calls answers,
      Reaches e content past calls (marked content) answers ∧
        y = (expanded content answers).html := by
  have hcourse := e.course_compile content past
  rw [h] at hcourse
  generalize (e.compile content past).calls = calls at hcourse
  cases hcourse with
  | @unlisted _ x answers _ hreaches hb =>
    obtain rfl := finds_unique (finds_of_reaches hreaches) (finds_marked hf hm content past)
    rw [hf] at hb
    obtain rfl := Except.ok.inj hb
    refine ⟨_, answers, hreaches, ?_⟩
    rw [Marked.html, hm]
    rfl
  | listed _ _ hne => exact absurd hfiles hne

/-- The resolver is asked for the same ids again, and gives each of them the same URL. -/
theorem reaches_again (hf : e.format = .html) (hm : e.markers = {})
    (hresolver : ∀ resolver, e.images.resolver? = some resolver → resolver.Consistent)
    (hids : (marked y).imageIds {} y = (marked content).imageIds {} content)
    (h : Reaches e content past calls (marked content) answers) (past' : History) :
    ∃ answers', Reaches e y past' calls (marked y) answers' ∧
      ∀ id ∈ (marked y).imageIds {} y, urlOf? answers' id = urlOf? answers id := by
  have hasked : (marked y).asked e.markers y = (marked content).asked e.markers content := by
    rw [hm, Marked.asked, hids, Marked.asked]
  have hnil : (marked y).images = [] ↔ (marked content).images = [] := by
    rw [Marked.imageIds, Marked.imageIds] at hids
    rw [← List.map_eq_nil_iff, hids, List.map_eq_nil_iff]
  have hfinds := finds_marked hf hm y past'
  cases h with
  | noImages _ hnone => exact ⟨[], .noImages hfinds (hnil.2 hnone), fun _ _ => rfl⟩
  | images _ hne hr ha hall =>
    rw [← hasked] at ha ⊢
    obtain ⟨answers', ha', hsame⟩ := hresolver _ hr _ (past' ++ [.links]) _ _ ha
    have hurl : ∀ id ∈ (marked y).imageIds {} y, urlOf? answers' id = urlOf? answers id := by
      intro id hid
      apply hsame
      rw [hm]
      exact ((ImageRegistry.firstSeen_distinct _).mem id).2 hid
    refine ⟨answers', .images hfinds (fun hnone => hne (hnil.1 hnone)) hr ha' ?_, hurl⟩
    intro id hid
    rw [hm] at hid
    rw [← urlOf?_isSome, hurl id hid, urlOf?_isSome]
    apply hall
    rwa [hm, ← hids]

/-- What is settled is written as it is. -/
theorem html_of_settled (hm : e.markers = {}) (h : SettledForest answers (Forest.parse y))
    (hreaches : Reaches e y past calls (marked y) answers')
    (hurl : ∀ id ∈ (marked y).imageIds {} y, urlOf? answers' id = urlOf? answers id) :
    (marked y).html e y answers' = y := by
  have hforest : ((marked y).afterImages e.markers (Document.parse y) answers').forest =
      Forest.parse y := Marked.forest_afterImages _ _ _ _
  rw [Marked.html, Document.html, Document.write_eq, hforest]
  refine (@Forest.write_of_same _ 0 [] _ fun p hp fragment hfragment => ?_).trans
    (Forest.parse_tile y).2
  rw [← hforest] at hp
  have hpf : (p, fragment) ∈
      ((marked y).afterImages e.markers (Document.parse y) answers').replaced :=
    List.mem_filterMap.2 ⟨p, hp, by rw [hfragment]; rfl⟩
  obtain ⟨hnode, hexpands⟩ := expands_of_reaches hreaches hpf
  rw [hm] at hexpands
  refine html_of_expands h hnode ?_
  cases hexpands with
  | hashtag hmem hnot => exact .hashtag hmem hnot
  | mention hmem hnot => exact .mention hmem hnot
  | link hlink => exact .link hlink
  | image hmem hsome =>
    rw [hurl _ (List.mem_map_of_mem hmem)] at hsome
    exact .image hmem hsome

end

end Compile

open Compile

end RichContent
