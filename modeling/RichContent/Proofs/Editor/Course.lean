/-
The course of a compile: which calls are made, and how it comes out.

Nine things can go wrong, one after the other, and `Stops` and `Course` list
them in this order, each with everything before it in order. For any editor
and any content exactly one of the cases is met (`exists_course`), and it says
all that the compile does (`compile_of_course`): the calls up to the failure
and the error of the failure as it is, or the body and the list of files. Each
service is asked after the calls in front of its own, which the cases say too.
-/
import RichContent.Proofs.Editor.Expansion
import RichContent.Proofs.Editor.Files

namespace RichContent

open Text

/-- The name of the view and the data that are asked for by a call. -/
def Call.view? : Call → Option (Text × Json)
  | view name data => some (name, data)
  | _ => none

namespace Compile

/-- The ids of the marked images, in document order. -/
def Marked.imageIds (x : Marked) (m : Markers) (content : Text) : List Text :=
  x.images.map (imageId m (Document.parse content))

/-- What the resolver is asked for: each of the ids once. -/
def Marked.asked (x : Marked) (m : Markers) (content : Text) : List Text :=
  ImageRegistry.distinct (x.imageIds m content)

variable (e : Editor) (content : Text) (past : History)

/-- All selectors are read and the format has given the links; these are the nodes to expand. -/
inductive Finds : Marked → Prop
  | intro {sh sm si : Selector} {links : List (NodeId × Fragment)} :
    Selector.parse e.markers.hashtagSelector = .ok sh →
    Selector.parse e.markers.mentionSelector = .ok sm →
    e.format.links.answer past (beforeLinks e.markers sh sm content) = .ok links →
    Selector.parse e.markers.imageSelector = .ok si →
    Finds (Marked.of (Document.parse content) sh sm si links)

/-- The calls and the error where the entities cannot all be expanded. -/
inductive Stops : List Call → EditorError → Prop
  | hashtagSelector {err : Selector.Error} :
    Selector.parse e.markers.hashtagSelector = .error err →
    Stops [] (.selector e.markers.hashtagSelector err)
  | mentionSelector {sh : Selector} {err : Selector.Error} :
    Selector.parse e.markers.hashtagSelector = .ok sh →
    Selector.parse e.markers.mentionSelector = .error err →
    Stops [] (.selector e.markers.mentionSelector err)
  | links {sh sm : Selector} {err : EditorError} :
    Selector.parse e.markers.hashtagSelector = .ok sh →
    Selector.parse e.markers.mentionSelector = .ok sm →
    e.format.links.answer past (beforeLinks e.markers sh sm content) = .error err →
    Stops [.links] err
  /-- Whether the content has an image does not matter. -/
  | imageSelector {sh sm : Selector} {links : List (NodeId × Fragment)} {err : Selector.Error} :
    Selector.parse e.markers.hashtagSelector = .ok sh →
    Selector.parse e.markers.mentionSelector = .ok sm →
    e.format.links.answer past (beforeLinks e.markers sh sm content) = .ok links →
    Selector.parse e.markers.imageSelector = .error err →
    Stops [.links] (.selector e.markers.imageSelector err)
  | noResolver {x : Marked} : Finds e content past x → x.images ≠ [] → e.images.resolver? = none →
    Stops [.links] (.configuration .noResolver)
  | resolver {x : Marked} {resolver : ImageResolver} {failure : Failure} :
    Finds e content past x → x.images ≠ [] → e.images.resolver? = some resolver →
    resolver.answer (past ++ [.links]) (x.asked e.markers content) = .error failure →
    Stops [.links, .images (x.asked e.markers content)] (.host failure)
  /-- Of the ids with no answer it is the one that the content has first. -/
  | missingImage {x : Marked} {resolver : ImageResolver} {answers : List ResolvedImage}
    {before after : List Text} {id : Text} :
    Finds e content past x → e.images.resolver? = some resolver →
    resolver.answer (past ++ [.links]) (x.asked e.markers content) = .ok answers →
    x.imageIds e.markers content = before ++ id :: after →
    (∀ id' ∈ before, ∃ a ∈ answers, a.key = id') → (∀ a ∈ answers, a.key ≠ id) →
    Stops [.links, .images (x.asked e.markers content)] (.missingImage id)

/-- The calls where all entities are expanded, the nodes, and the answers for the images. -/
inductive Reaches : List Call → Marked → List ResolvedImage → Prop
  | noImages {x : Marked} : Finds e content past x → x.images = [] → Reaches [.links] x []
  | images {x : Marked} {resolver : ImageResolver} {answers : List ResolvedImage} :
    Finds e content past x → x.images ≠ [] → e.images.resolver? = some resolver →
    resolver.answer (past ++ [.links]) (x.asked e.markers content) = .ok answers →
    (∀ id ∈ x.imageIds e.markers content, ∃ a ∈ answers, a.key = id) →
    Reaches [.links, .images (x.asked e.markers content)] x answers

/-- The markup with the entities expanded. -/
def Marked.html (x : Marked) (e : Editor) (content : Text) (answers : List ResolvedImage) : Text :=
  (x.afterImages e.markers (Document.parse content) answers).html

/-- The calls of a compile and what comes of it. -/
inductive Course : List Call → Except EditorError Text → Prop
  | stops {calls : List Call} {err : EditorError} : Stops e content past calls err →
    Course calls (.error err)
  | body {calls : List Call} {x : Marked} {answers : List ResolvedImage} {failure : Failure} :
    Reaches e content past calls x answers →
    e.format.body.answer (past ++ calls) (x.html e content answers) = .error failure →
    Course (calls ++ [.body (x.html e content answers)]) (.error (.host failure))
  | view {calls : List Call} {x : Marked} {answers : List ResolvedImage} {body : Text}
    {failure : Failure} :
    Reaches e content past calls x answers →
    e.format.body.answer (past ++ calls) (x.html e content answers) = .ok body →
    e.inst.files ≠ [] →
    e.host.view.answer (past ++ calls ++ [.body (x.html e content answers)])
      (filesView, filesData e.inst.files) = .error failure →
    Course (calls ++ [.body (x.html e content answers), .view filesView (filesData e.inst.files)])
      (.error (.host failure))
  | unlisted {calls : List Call} {x : Marked} {answers : List ResolvedImage} {body : Text} :
    Reaches e content past calls x answers →
    e.format.body.answer (past ++ calls) (x.html e content answers) = .ok body →
    e.inst.files = [] →
    Course (calls ++ [.body (x.html e content answers)]) (.ok body)
  | listed {calls : List Call} {x : Marked} {answers : List ResolvedImage} {body list : Text} :
    Reaches e content past calls x answers →
    e.format.body.answer (past ++ calls) (x.html e content answers) = .ok body →
    e.inst.files ≠ [] →
    e.host.view.answer (past ++ calls ++ [.body (x.html e content answers)])
      (filesView, filesData e.inst.files) = .ok list →
    Course (calls ++ [.body (x.html e content answers), .view filesView (filesData e.inst.files)])
      (.ok (body ++ list))

variable {e : Editor} {content : Text} {past : History}

/-! ## Each case is what the compile does -/

theorem read_of_parse {t : Text} {s : Selector} (h : Selector.parse t = .ok s) :
    Selector.read t = .ok s := by
  rw [Selector.read, h]
  rfl

theorem markerSelector_of_error {t : Text} {err : Selector.Error}
    (h : Selector.parse t = .error err) : markerSelector t = Traced.fail (.selector t err) := by
  rw [markerSelector, Selector.read, h]
  rfl

theorem urlOf?_isSome {answers : List ResolvedImage} {id : Text} :
    (urlOf? answers id).isSome = true ↔ ∃ a ∈ answers, a.key = id := by
  simp [urlOf?]

theorem urlOf?_eq_none {answers : List ResolvedImage} {id : Text} :
    urlOf? answers id = none ↔ ∀ a ∈ answers, a.key ≠ id := by
  simp [urlOf?]

theorem imageFragments_eq_error {m : Markers} {answers : List ResolvedImage}
    {before after : List (NodeId × Text)} {x : NodeId × Text}
    (hbefore : ∀ y ∈ before, (urlOf? answers y.2).isSome = true) (hx : urlOf? answers x.2 = none) :
    imageFragments m answers (before ++ x :: after) = .error (.missingImage x.2) := by
  induction before with
  | nil =>
    rw [List.nil_append, imageFragments, hx]
  | cons y before ih =>
    obtain ⟨hy, hbefore⟩ := List.forall_mem_cons.1 hbefore
    obtain ⟨url, hurl⟩ := Option.isSome_iff_exists.1 hy
    rw [List.cons_append, imageFragments, hurl]
    simp only [ih hbefore]
    rfl

theorem imageFragments_of_isSome {m : Markers} {answers : List ResolvedImage}
    {ids : List (NodeId × Text)} (h : ∀ x ∈ ids, (urlOf? answers x.2).isSome = true) :
    imageFragments m answers ids =
      .ok (ids.map fun x => (x.1, image m x.2 ((urlOf? answers x.2).getD []))) := by
  induction ids with
  | nil => rfl
  | cons x ids ih =>
    obtain ⟨hx, hids⟩ := List.forall_mem_cons.1 h
    obtain ⟨url, hurl⟩ := Option.isSome_iff_exists.1 hx
    rw [imageFragments, hurl]
    simp only [ih hids, List.map_cons, hurl]
    rfl

theorem expand_of_parse {sh sm : Selector} (hh : Selector.parse e.markers.hashtagSelector = .ok sh)
    (hm : Selector.parse e.markers.mentionSelector = .ok sm) :
    e.expand content = links e.format (beforeLinks e.markers sh sm content) >>=
      images e.markers e.images :=
  Editor.expand_of_read (read_of_parse hh) (read_of_parse hm) content

/-- The marked images have kept their ids when it is their turn. -/
theorem imageId_of_finds {x : Marked} (h : Finds e content past x) {p : Position} (hp : p ∈ x.images) :
    imageId e.markers (x.afterLinks e.markers (Document.parse content)) p =
      imageId e.markers (Document.parse content) p := by
  cases h with
  | intro => exact Marked.imageId_afterLinks e.markers rfl _ _ _ _ hp

/-- The stage of the images, with the images that are marked in the source. -/
def Marked.expandImages (x : Marked) (e : Editor) (content : Text) : Traced Document :=
  if x.images = [] then pure (x.afterLinks e.markers (Document.parse content)) else do
    let answers ← e.images.resolve (x.imageIds e.markers content)
    let fragments ← Traced.ofExcept (imageFragments e.markers answers
      (x.images.map fun p => (p.id, imageId e.markers (Document.parse content) p)))
    pure ((x.afterLinks e.markers (Document.parse content)).replaceAll fragments)

/-- Once the nodes are found the rest is up to the images, which are as they are in the source. -/
theorem expand_of_finds {x : Marked} (h : Finds e content past x) : e.expand content past =
    ⟨.links :: (x.expandImages e content (past ++ [.links])).calls,
      (x.expandImages e content (past ++ [.links])).result⟩ := by
  have hid := fun p => imageId_of_finds h (p := p)
  cases h with
  | @intro sh sm si links hh hm hl hi =>
    have hx : (beforeLinks e.markers sh sm content).replaceAll links =
        (Marked.of (Document.parse content) sh sm si links).afterLinks e.markers
          (Document.parse content) := by
      rw [Marked.afterLinks, Marked.afterMentions_of]
      rfl
    have hstage := images_of_read (read_of_parse hi) e.images
      ((beforeLinks e.markers sh sm content).replaceAll links)
    rw [Marked.select_images, hx, List.map_congr_left hid,
      List.map_congr_left fun p hp => congrArg (Prod.mk p.id) (hid p hp)] at hstage
    have hlinks := links_eq e.format (beforeLinks e.markers sh sm content) past
    rw [hl] at hlinks
    rw [expand_of_parse hh hm, Traced.bind_of_ok (by rw [hlinks]; rfl), hlinks, hx, hstage]
    rfl

/-- With the answers there, what is left is to look each id up. -/
theorem expand_of_answers {x : Marked} {resolver : ImageResolver} {answers : List ResolvedImage}
    (h : Finds e content past x) (hne : x.images ≠ []) (hr : e.images.resolver? = some resolver)
    (ha : resolver.answer (past ++ [.links]) (x.asked e.markers content) = .ok answers) :
    e.expand content past = ⟨[.links, .images (x.asked e.markers content)],
      (imageFragments e.markers answers
        (x.images.map fun p => (p.id, imageId e.markers (Document.parse content) p))).map
          (x.afterLinks e.markers (Document.parse content)).replaceAll⟩ := by
  have hask : e.images.resolve (x.imageIds e.markers content) (past ++ [.links]) =
      ⟨[.images (x.asked e.markers content)], .ok answers⟩ := by
    rw [ImageRegistry.resolve, hr]
    exact Service.ask_of_ok ha _
  rw [expand_of_finds h, Marked.expandImages, if_neg hne, Traced.bind_of_ok (by rw [hask]), hask,
    Traced.bind_pure_apply]
  rfl

theorem expand_of_stops {calls : List Call} {err : EditorError}
    (h : Stops e content past calls err) : e.expand content past = ⟨calls, .error err⟩ := by
  cases h with
  | hashtagSelector hh =>
    rw [Editor.expand, hashtags, markerSelector_of_error hh]
    rfl
  | mentionSelector hh hm =>
    rw [Editor.expand, hashtags_of_read (read_of_parse hh), Traced.pure_bind, mentions,
      markerSelector_of_error hm]
    rfl
  | links hh hm hl =>
    rw [expand_of_parse hh hm, Traced.bind_of_error (by rw [links_eq, hl]; rfl), links_eq]
  | imageSelector hh hm hl hi =>
    rw [expand_of_parse hh hm, Traced.bind_of_ok (by rw [links_eq, hl]; rfl), links_eq, images,
      markerSelector_of_error hi]
    rfl
  | noResolver hx hne hr =>
    rw [expand_of_finds hx, Marked.expandImages, if_neg hne, ImageRegistry.resolve, hr]
    rfl
  | @resolver x resolver failure hx hne hr ha =>
    have hask : e.images.resolve (x.imageIds e.markers content) (past ++ [.links]) =
        ⟨[.images (x.asked e.markers content)], .error (.host failure)⟩ := by
      rw [ImageRegistry.resolve, hr]
      exact Service.ask_of_error ha _
    rw [expand_of_finds hx, Marked.expandImages, if_neg hne, Traced.bind_of_error (by rw [hask]),
      hask]
  | @missingImage x resolver answers before after id hx hr ha hids hbefore hid =>
    have hne : x.images ≠ [] := by
      intro hnil
      rw [Marked.imageIds, hnil] at hids
      simp at hids
    obtain ⟨l, r, himages, hl, hr'⟩ := List.map_eq_append_iff.1 hids
    obtain ⟨p, r, rfl, hp, hr''⟩ := List.map_eq_cons_iff.1 hr'
    have hfragments : imageFragments e.markers answers
        (x.images.map fun p => (p.id, imageId e.markers (Document.parse content) p)) =
          .error (.missingImage id) := by
      rw [himages, List.map_append, List.map_cons, imageFragments_eq_error, hp]
      · intro y hy
        obtain ⟨q, hq, rfl⟩ := List.mem_map.1 hy
        exact urlOf?_isSome.2 (hbefore _ (hl ▸ List.mem_map_of_mem hq))
      · rw [hp]
        exact urlOf?_eq_none.2 hid
    rw [expand_of_answers hx hne hr ha, hfragments]
    rfl

theorem expand_of_reaches {calls : List Call} {x : Marked} {answers : List ResolvedImage}
    (h : Reaches e content past calls x answers) :
    e.expand content past =
      ⟨calls, .ok (x.afterImages e.markers (Document.parse content) answers)⟩ := by
  cases h with
  | noImages hx hnil =>
    rw [expand_of_finds hx, Marked.expandImages, if_pos hnil, Marked.afterImages, hnil]
    rfl
  | images hx hne hr ha hall =>
    have hfragments := @imageFragments_of_isSome e.markers answers
      (x.images.map fun p => (p.id, imageId e.markers (Document.parse content) p))
    rw [List.map_map] at hfragments
    have hafter : x.afterImages e.markers (Document.parse content) answers =
        (x.afterLinks e.markers (Document.parse content)).replaceAll (x.images.map
          ((fun y => (y.1, image e.markers y.2 ((urlOf? answers y.2).getD []))) ∘
            fun p => (p.id, imageId e.markers (Document.parse content) p))) := by
      rw [Marked.afterImages, Document.replaceEach]
      congr 1
      apply List.map_congr_left
      intro p hp
      simp only [Function.comp_apply, imageAt, imageId_of_finds hx hp]
    rw [expand_of_answers hx hne hr ha, hafter, hfragments]
    · rfl
    · intro y hy
      obtain ⟨p, hp, rfl⟩ := List.mem_map.1 hy
      exact urlOf?_isSome.2 (hall _ (List.mem_map_of_mem hp))

theorem fileList_of_ne_nil {host : Host} {files : List AttachedFile} (h : files ≠ []) :
    fileList host files = host.view.ask .host (filesView, filesData files) := by
  obtain ⟨file, files, rfl⟩ := List.exists_cons_of_ne_nil h
  rfl

/-- Once all entities are expanded, what is left is the body and the list of files. -/
theorem compile_of_reaches {calls : List Call} {x : Marked} {answers : List ResolvedImage}
    (h : Reaches e content past calls x answers) : e.compile content past =
      ⟨calls ++ ((e.format.body.ask .host (x.html e content answers) >>= fun body =>
          fileList e.host e.inst.files >>= fun files => pure (body ++ files)) (past ++ calls)).calls,
        ((e.format.body.ask .host (x.html e content answers) >>= fun body =>
          fileList e.host e.inst.files >>= fun files => pure (body ++ files))
            (past ++ calls)).result⟩ := by
  have hexpand := expand_of_reaches h
  rw [Editor.compile, Traced.bind_of_ok (by rw [hexpand]), hexpand]
  rfl

theorem compile_of_course {calls : List Call} {result : Except EditorError Text}
    (h : Course e content past calls result) : e.compile content past = ⟨calls, result⟩ := by
  cases h with
  | stops h =>
    have hexpand := expand_of_stops h
    rw [Editor.compile, Traced.bind_of_error (by rw [hexpand]), hexpand]
  | body h hb =>
    have hask := Service.ask_of_error hb .host
    rw [compile_of_reaches h, Traced.bind_of_error (by rw [hask]), hask]
  | view h hb hf hv =>
    have hask := Service.ask_of_ok hb .host
    have hlist := Service.ask_of_error hv .host
    rw [compile_of_reaches h, Traced.bind_of_ok (by rw [hask]), hask, Traced.bind_pure_apply,
      fileList_of_ne_nil hf, hlist]
    rfl
  | unlisted h hb hf =>
    have hask := Service.ask_of_ok hb .host
    rw [compile_of_reaches h, Traced.bind_of_ok (by rw [hask]), hask, Traced.bind_pure_apply, hf]
    simp [fileList, Except.map]
  | listed h hb hf hv =>
    have hask := Service.ask_of_ok hb .host
    have hlist := Service.ask_of_ok hv .host
    rw [compile_of_reaches h, Traced.bind_of_ok (by rw [hask]), hask, Traced.bind_pure_apply,
      fileList_of_ne_nil hf, hlist]
    rfl

/-! ## One of the cases is met -/

/-- Every id has an answer, or one of them is the first to have none. -/
theorem answered_or_missing (answers : List ResolvedImage) (ids : List Text) :
    (∀ id ∈ ids, ∃ a ∈ answers, a.key = id) ∨ ∃ before id after, ids = before ++ id :: after ∧
      (∀ id' ∈ before, ∃ a ∈ answers, a.key = id') ∧ ∀ a ∈ answers, a.key ≠ id := by
  cases hfind : ids.find? fun id => (urlOf? answers id).isNone with
  | none =>
    left
    intro id hid
    have hsome := List.find?_eq_none.1 hfind id hid
    rw [Bool.not_eq_true, Option.isNone_eq_false_iff] at hsome
    exact urlOf?_isSome.1 hsome
  | some id =>
    right
    obtain ⟨hnone, before, after, hids, hbefore⟩ := List.find?_eq_some_iff_append.1 hfind
    refine ⟨before, id, after, hids, fun id' hid' => ?_, ?_⟩
    · have hsome := hbefore id' hid'
      rw [Bool.not_eq_true', Option.isNone_eq_false_iff] at hsome
      exact urlOf?_isSome.1 hsome
    · exact urlOf?_eq_none.1 (Option.isNone_iff_eq_none.1 hnone)

theorem finds_or_stops (e : Editor) (content : Text) (past : History) :
    (∃ x, Finds e content past x) ∨ ∃ calls err, Stops e content past calls err := by
  cases hh : Selector.parse e.markers.hashtagSelector with
  | error err => exact .inr ⟨_, _, .hashtagSelector hh⟩
  | ok sh =>
  cases hm : Selector.parse e.markers.mentionSelector with
  | error err => exact .inr ⟨_, _, .mentionSelector hh hm⟩
  | ok sm =>
  cases hl : e.format.links.answer past (beforeLinks e.markers sh sm content) with
  | error err => exact .inr ⟨_, _, .links hh hm hl⟩
  | ok links =>
  cases hi : Selector.parse e.markers.imageSelector with
  | error err => exact .inr ⟨_, _, .imageSelector hh hm hl hi⟩
  | ok si => exact .inl ⟨_, .intro hh hm hl hi⟩

theorem reaches_or_stops (e : Editor) (content : Text) (past : History) :
    (∃ calls x answers, Reaches e content past calls x answers) ∨
      ∃ calls err, Stops e content past calls err := by
  rcases finds_or_stops e content past with ⟨x, hx⟩ | hstops
  · by_cases hne : x.images = []
    · exact .inl ⟨_, x, [], .noImages hx hne⟩
    cases hr : e.images.resolver? with
    | none => exact .inr ⟨_, _, .noResolver hx hne hr⟩
    | some resolver =>
    cases ha : resolver.answer (past ++ [.links]) (x.asked e.markers content) with
    | error failure => exact .inr ⟨_, _, .resolver hx hne hr ha⟩
    | ok answers =>
    rcases answered_or_missing answers (x.imageIds e.markers content) with
      hall | ⟨before, id, after, hids, hbefore, hid⟩
    · exact .inl ⟨_, x, answers, .images hx hne hr ha hall⟩
    · exact .inr ⟨_, _, .missingImage hx hr ha hids hbefore hid⟩
  · exact .inr hstops

/-- Expanding the entities does not both stop and come to its end. -/
theorem not_stops_of_reaches {calls calls' : List Call} {x : Marked} {answers : List ResolvedImage}
    {err : EditorError} (h : Reaches e content past calls x answers) :
    ¬ Stops e content past calls' err := by
  intro hstops
  have heq := (expand_of_reaches h).symm.trans (expand_of_stops hstops)
  cases heq

theorem exists_course (e : Editor) (content : Text) (past : History) :
    ∃ calls result, Course e content past calls result := by
  rcases reaches_or_stops e content past with ⟨calls, x, answers, h⟩ | ⟨calls, err, h⟩
  · cases hb : e.format.body.answer (past ++ calls) (x.html e content answers) with
    | error failure => exact ⟨_, _, .body h hb⟩
    | ok body =>
    by_cases hf : e.inst.files = []
    · exact ⟨_, _, .unlisted h hb hf⟩
    cases hv : e.host.view.answer (past ++ calls ++ [.body (x.html e content answers)])
      (filesView, filesData e.inst.files) with
    | error failure => exact ⟨_, _, .view h hb hf hv⟩
    | ok list => exact ⟨_, _, .listed h hb hf hv⟩
  · exact ⟨_, _, .stops h⟩

/-! ## The calls of the format and of the view -/

theorem not_body_of_stops {calls : List Call} {err : EditorError}
    (h : Stops e content past calls err) :
    calls.filterMap Call.body? = [] ∧ calls.filterMap Call.view? = [] := by
  cases h <;> exact ⟨rfl, rfl⟩

theorem not_body_of_reaches {calls : List Call} {x : Marked} {answers : List ResolvedImage}
    (h : Reaches e content past calls x answers) :
    calls.filterMap Call.body? = [] ∧ calls.filterMap Call.view? = [] := by
  cases h <;> exact ⟨rfl, rfl⟩

/-- The entities are expanded with the same calls and to the same markup. -/
theorem reaches_unique {calls calls' : List Call} {x x' : Marked}
    {answers answers' : List ResolvedImage} (h : Reaches e content past calls x answers)
    (h' : Reaches e content past calls' x' answers') :
    calls = calls' ∧ x.html e content answers = x'.html e content answers' := by
  have heq := (expand_of_reaches h).symm.trans (expand_of_reaches h')
  simp only [Trace.mk.injEq, Except.ok.injEq] at heq
  exact ⟨heq.1, by rw [Marked.html, heq.2, Marked.html]⟩

/-- The format is handed the markup once if the entities are expanded, and else not at all. -/
theorem body?_of_course {calls : List Call} {result : Except EditorError Text}
    (h : Course e content past calls result) :
    (∃ calls' x answers, Reaches e content past calls' x answers ∧
      calls.filterMap Call.body? = [x.html e content answers]) ∨
    (¬ ∃ calls' x answers, Reaches e content past calls' x answers) ∧
      calls.filterMap Call.body? = [] := by
  cases h with
  | stops h =>
    right
    refine ⟨?_, (not_body_of_stops h).1⟩
    rintro ⟨calls', x, answers, hreaches⟩
    exact not_stops_of_reaches hreaches h
  | body h | view h | unlisted h | listed h =>
    refine .inl ⟨_, _, _, h, ?_⟩
    rw [List.filterMap_append, (not_body_of_reaches h).1]
    rfl

/-- The view is asked for the attached files once if there are any and the format has made a body,
and else not at all. -/
theorem view?_of_course {calls : List Call} {result : Except EditorError Text}
    (h : Course e content past calls result) :
    (e.inst.files ≠ [] ∧ (∃ calls' x answers body, Reaches e content past calls' x answers ∧
      e.format.body.answer (past ++ calls') (x.html e content answers) = .ok body) ∧
      calls.filterMap Call.view? = [(filesView, filesData e.inst.files)]) ∨
    ¬ (e.inst.files ≠ [] ∧ ∃ calls' x answers body, Reaches e content past calls' x answers ∧
      e.format.body.answer (past ++ calls') (x.html e content answers) = .ok body) ∧
      calls.filterMap Call.view? = [] := by
  cases h with
  | stops h =>
    right
    refine ⟨?_, (not_body_of_stops h).2⟩
    rintro ⟨-, calls', x, answers, body, hreaches, -⟩
    exact not_stops_of_reaches hreaches h
  | body h hb =>
    right
    refine ⟨?_, ?_⟩
    · rintro ⟨-, calls', x, answers, body, hreaches, hb'⟩
      obtain ⟨rfl, hhtml⟩ := reaches_unique h hreaches
      rw [hhtml, hb'] at hb
      cases hb
    · rw [List.filterMap_append, (not_body_of_reaches h).2]
      rfl
  | unlisted h hb hf =>
    right
    refine ⟨fun hlisted => hlisted.1 hf, ?_⟩
    rw [List.filterMap_append, (not_body_of_reaches h).2]
    rfl
  | view h hb hf | listed h hb hf =>
    refine .inl ⟨hf, ⟨_, _, _, _, h, hb⟩, ?_⟩
    rw [List.filterMap_append, (not_body_of_reaches h).2]
    rfl

/-- The data of the view hold an item for each of the files, in order, and it is read as the
file. -/
def Lists (data : Json) (files : List AttachedFile) : Prop :=
  ∃ items, data = Json.ofFields [("files", .arr items)] ∧
    List.Forall₂ (fun item f => AttachedFile.IsRead f → AttachedFile.read? item = some f) items files

theorem lists_filesData (files : List AttachedFile) : Lists (filesData files) files :=
  ⟨_, rfl, List.forall₂_map_left_iff.2
    (List.forall₂_same.2 fun _ _ hread => AttachedFile.IsRead.read?_json hread)⟩

end Compile

open Compile

theorem Editor.course_compile (e : Editor) (content : Text) (past : History) :
    Course e content past (e.compile content past).calls (e.compile content past).result := by
  obtain ⟨calls, result, h⟩ := exists_course e content past
  rw [compile_of_course h]
  exact h

/-- **A compile fails with the first thing that goes wrong, and calls nothing that comes after
it.** The format makes the body once everything before has succeeded, the view is asked once there
is a body and a file to list, and what it is handed lists the attached files. -/
theorem Editor.compile_takes_course (e : Editor) (content : Text) (past : History) :
    (∀ calls result, e.compile content past = ⟨calls, result⟩ ↔
      Course e content past calls result) ∧
    ((∃ calls x answers, Reaches e content past calls x answers ∧
        (e.compile content past).calls.filterMap Call.body? = [x.html e content answers]) ∨
      (¬ ∃ calls x answers, Reaches e content past calls x answers) ∧
        (e.compile content past).calls.filterMap Call.body? = []) ∧
    ((e.inst.files ≠ [] ∧ (∃ calls x answers body, Reaches e content past calls x answers ∧
        e.format.body.answer (past ++ calls) (x.html e content answers) = .ok body) ∧
        (e.compile content past).calls.filterMap Call.view? =
          [(filesView, filesData e.inst.files)]) ∨
      ¬ (e.inst.files ≠ [] ∧ ∃ calls x answers body, Reaches e content past calls x answers ∧
        e.format.body.answer (past ++ calls) (x.html e content answers) = .ok body) ∧
        (e.compile content past).calls.filterMap Call.view? = []) ∧
    Lists (filesData e.inst.files) e.inst.files := by
  have hcourse := e.course_compile content past
  refine ⟨fun calls result => ⟨fun h => ?_, fun h => compile_of_course h⟩,
    body?_of_course hcourse, view?_of_course hcourse, lists_filesData e.inst.files⟩
  rw [h] at hcourse
  exact hcourse

end RichContent
