/-
What replacements make of the markup of a source and of its text.

Of a node only the fragment counts that it was given last, and of several
nodes, one inside the other, only the outermost. In the markup the fragment
takes the place of the stretch of the source that the node is; in the text it
takes the place of what the node and all that is below it contribute. So a
replacement inside a replaced node changes nothing, and neither does the order
of replacements, as long as each node is given the same fragment last
(`rewrites_afterReplacing`).
-/
import Mathlib.Tactic.FinCases
import Mathlib.Tactic.Set
import RichContent.Proofs.Markup.Descendants

namespace RichContent

open Text

/-! ## The text of a document -/

namespace Position

/-- What a node adds to the text by itself. -/
def ownText (p : Position) : Text :=
  match p.node with
  | .text s => decode s.text
  | _ => []

/-- What nodes add to the text, one after the other. -/
def ownTexts (ps : List Position) : Text := ps.flatMap ownText

@[simp] theorem ownTexts_nil : ownTexts [] = [] := rfl

@[simp] theorem ownTexts_cons (p : Position) (ps : List Position) :
    ownTexts (p :: ps) = p.ownText ++ ownTexts ps := List.flatMap_cons

@[simp] theorem ownTexts_append (ps qs : List Position) :
    ownTexts (ps ++ qs) = ownTexts ps ++ ownTexts qs := List.flatMap_append

end Position

namespace Forest

variable {f : Forest} {n : NodeId} {ancestors : List (NodeId × StartTag)}

/-- The text of a forest is what its nodes add to it. -/
theorem ownTexts_positions (f : Forest) (n : NodeId) (ancestors : List (NodeId × StartTag)) :
    Position.ownTexts (f.positions n ancestors) = f.fresh .plain := by
  induction f generalizing n ancestors with
  | nil => rfl
  | text s rest ih | raw s rest ih =>
    simp [ih, fresh, Position.ownText, View.plain]
  | element tag opening children closing rest ihc ihr =>
    cases closing <;> simp [ihc, ihr, fresh, Position.ownText, View.plain, View.tag?]

theorem length_positions (f : Forest) (n : NodeId) (ancestors : List (NodeId × StartTag)) :
    (f.positions n ancestors).length = f.size := by
  have h := congrArg List.length (positions_id f n ancestors)
  rwa [List.length_map, List.length_range'] at h

/-- In the text the place of a node is behind what the nodes before it add. -/
theorem placed_plain {all : List Position} {a : Nat} (before after : List Position)
    (h : all = before ++ f.positions n ancestors ++ after) (hn : before.length = n)
    (ha : (Position.ownTexts before).utf8Size = a) :
    f.Placed .plain
      (fun p => ⟨(Position.ownTexts (all.take p.id)).utf8Size, p.node.fresh .plain⟩)
      a n ancestors := by
  induction f generalizing n ancestors before after a with
  | nil => exact fun x hx => absurd hx List.not_mem_nil
  | text s rest ih =>
    refine placed_text.2 ⟨?_, ih (before ++ [⟨n, ancestors, .text s⟩]) after ?_ ?_ ?_⟩
    · simp [h, ← hn, ← ha, Node.fresh]
    · simp [h]
    · simp [hn]
    · simp [Position.ownText, View.plain, ha]
  | raw s rest ih =>
    refine placed_raw.2 ⟨?_, ih (before ++ [⟨n, ancestors, .raw s⟩]) after ?_ ?_ ?_⟩
    · simp [h, ← hn, ← ha, Node.fresh]
    · simp [h]
    · simp [hn]
    · simp [Position.ownText, View.plain, ha]
  | element tag opening children closing rest ihc ihr =>
    set p : Position := ⟨n, ancestors, .element tag opening children closing⟩
    set below := children.positions (n + 1) ((n, tag) :: ancestors)
    have hown : Position.ownTexts (p :: below) = p.node.fresh .plain := by
      cases closing <;>
        simp [p, below, ownTexts_positions, Position.ownText, Node.fresh, View.plain, View.tag?]
    refine placed_element.2 ⟨?_,
      ihc (before ++ [p]) (rest.positions (n + 1 + children.size) ancestors ++ after) ?_ ?_ ?_,
      ihr (before ++ p :: below) after ?_ ?_ ?_⟩
    · simp [h, ← hn, ← ha]
    · simp [h, p]
    · simp [hn]
    · simp [p, Position.ownText, View.plain, ha]
    · simp [h, p, below]
    · simp [hn, below, length_positions]
      omega
    · rw [Position.ownTexts_append, hown, utf8Size_append, ha]
      rfl

/-- A forest writes what the nodes at its top write. -/
theorem flatMap_write_topPositions (v : View) (replaced : Replacements) (f : Forest) (n : NodeId)
    (ancestors : List (NodeId × StartTag)) :
    (f.topPositions n ancestors).flatMap (fun p => p.node.write v replaced p.id)
      = f.write v replaced n := by
  induction f generalizing n with
  | nil => rfl
  | text s rest ih | raw s rest ih => rw [topPositions, List.flatMap_cons, ih]; rfl
  | element tag opening children closing rest _ ih =>
    rw [topPositions, List.flatMap_cons, ih, Node.write_element]
    rfl

end Forest

namespace Document

/-- The text of the nodes before a node in document order. -/
def textBefore (d : Document) (p : Position) : Text := Position.ownTexts (d.nodes.take p.id)

/-- What a node and all that is below it contribute to the text, where it is in the text. -/
def textSlice (d : Document) (p : Position) : Slice := ⟨(d.textBefore p).utf8Size, d.textOf p⟩

/-- The edit of the text that puts a fragment in the place of what a node contributes. -/
def textEdit (d : Document) (p : Position) (f : Fragment) : Edit := ⟨(d.textSlice p).span, f.text⟩

/-- A document writes what the nodes at its top write. -/
theorem write_eq_flatMap_roots (d : Document) (v : View) :
    d.write v =
      (d.roots.filterMap d.node?).flatMap fun p => p.node.write v d.replacement? p.id := by
  have hroots : d.roots.filterMap d.node? = d.forest.topPositions 0 [] := by
    rw [roots, ← Forest.topPositions_id d.forest 0 [], List.filterMap_map]
    refine (List.filterMap_congr fun p hp => ?_).trans List.filterMap_some
    exact node?_of_mem (Forest.mem_positions_of_top hp)
  rw [hroots, Forest.flatMap_write_topPositions, write_eq]

section

variable {content : Text}

theorem placed_textSlice (content : Text) :
    (parse content).forest.Placed .plain (parse content).textSlice 0 0 [] := by
  have h := @Forest.placed_plain (parse content).forest 0 [] (parse content).nodes 0 [] []
    (List.append_nil _).symm rfl rfl
  intro x hx
  rw [← h x hx, textSlice, textOf]
  congr 1
  exact Node.write_none _ _ _

theorem text_parse (content : Text) :
    (parse content).text = (parse content).forest.fresh .plain := by
  rw [text, write_eq]
  exact Forest.write_none _ _ _

/-- What a node contributes is where it is said to be. -/
theorem textSlice_in {p : Position} (hp : p ∈ (parse content).nodes) :
    ((parse content).textSlice p).In (parse content).text := by
  have hmem : p ∈ ((parse content).forest.places .plain 0 0 []).map (·.1) := by
    rw [Forest.map_fst_places]
    exact hp
  obtain ⟨x, hx, rfl⟩ := List.mem_map.1 hmem
  obtain ⟨before, after, hsplit, hstart⟩ := Forest.places_in hx
  rw [placed_textSlice content x hx, text_parse]
  exact ⟨before, after, hsplit, hstart.trans (Nat.zero_add _)⟩

/-- **Of the fragments that have been given to nodes only those count that are reached.** The
markup is the source, and the text is the text of the source, with these put in their places. -/
theorem write_eq_splice {d : Document} (hd : d.original = parse content) :
    d.html = splice 0 content (d.replaced.map fun (p, f) => p.edit f) ∧
      d.text = splice 0 (parse content).text
        (d.replaced.map fun (p, f) => (parse content).textEdit p f) := by
  have hforest : d.original.forest = (parse content).forest := congrArg forest hd
  change d.forest = (parse content).forest at hforest
  obtain ⟨htile, hjoin⟩ := Forest.parse_tile content
  constructor
  · have htile' : Slice.Tile 0 d.forest.slices content.utf8Size := hforest ▸ htile
    rw [html_eq_splice htile', hforest]
    exact congrArg (splice 0 · _) hjoin
  · have h := Forest.splice_editsAt d.replacement? (placed_textSlice content) []
      (List.forall_mem_nil _)
    rw [List.append_nil, List.append_nil, splice, List.append_nil, ← hforest, ← map_replaced,
      hforest, ← text_parse] at h
    rw [text, write_eq, hforest]
    exact h.symm

end

/-- A replacement inside a replaced node leaves what is reached as it was. -/
theorem replaced_replace_inside {d : Document} {p : Position} {a : NodeId} (hp : p ∈ d.nodes)
    (ha : a ∈ d.replacedIds) (hencloses : d.Encloses a p) (f : Fragment) :
    (d.replace p.id f).replaced = d.replaced := by
  have hbelow : ∀ q ∈ d.nodes, q.isBelow (p.id :: d.replacedIds) = q.isBelow d.replacedIds := by
    intro q hq
    rw [Bool.eq_iff_iff, isBelow_iff hq, isBelow_iff hq]
    constructor
    · rintro ⟨b, hb, hbq⟩
      rcases List.mem_cons.1 hb with rfl | hb
      · exact ⟨a, ha, hencloses.trans hp hq hbq⟩
      · exact ⟨b, hb, hbq⟩
    · rintro ⟨b, hb, hbq⟩
      exact ⟨b, List.mem_cons_of_mem _ hb, hbq⟩
  have hreachable : (d.replace p.id f).reachable = d.reachable := by
    rw [reachable_eq_filter, reachable_eq_filter]
    exact List.filter_congr fun q hq => congrArg (!·) (hbelow q hq)
  rw [replaced, replaced, hreachable]
  refine List.filterMap_congr fun q hq => ?_
  have hne : q.id ≠ p.id := by
    intro hid
    obtain rfl := eq_of_id (mem_nodes_of_reachable hq) hp hid
    rw [reachable_eq_filter] at hq
    have hout := (List.mem_filter.1 hq).2
    rw [(isBelow_iff hp _).2 ⟨a, ha, hencloses⟩] at hout
    cases hout
  rw [replacement?, replace, List.lookup_cons, beq_false_of_ne hne]
  rfl

end Document

/-! ## Many replacements -/

/-- Of some replacements the last one of a node gives it this fragment. -/
def GivenLast (rs : List (NodeId × Fragment)) (id : NodeId) (f : Fragment) : Prop :=
  ∃ before after, rs = before ++ (id, f) :: after ∧ ∀ r ∈ after, r.1 ≠ id

theorem lookup_reverse_eq_some {rs : List (NodeId × Fragment)} {id : NodeId} {f : Fragment} :
    rs.reverse.lookup id = some f ↔ GivenLast rs id f := by
  rw [List.lookup_eq_some_iff]
  constructor
  · rintro ⟨l, r, hsplit, hl⟩
    refine ⟨r.reverse, l.reverse, ?_, fun x hx => ?_⟩
    · rw [← List.reverse_reverse rs, hsplit]
      simp
    · exact fun he => absurd he.symm (bne_iff_ne.1 (hl x (List.mem_reverse.1 hx)))
  · rintro ⟨before, after, rfl, hafter⟩
    exact ⟨after.reverse, before.reverse, by simp, fun x hx =>
      bne_iff_ne.2 (hafter x (List.mem_reverse.1 hx)).symm⟩

namespace Document

variable {content : Text} {rs : List (NodeId × Fragment)}

theorem replacement?_afterReplacing {id : NodeId} {f : Fragment} :
    ((parse content).replaceAll rs).replacement? id = some f ↔ GivenLast rs id f := by
  rw [replacement?_replaceAll, ← lookup_reverse_eq_some]
  exact (congrArg (· = some f) Option.or_none).to_iff

/-- What replacements make of a source: some nodes, in document order, give way to fragments. -/
structure Rewrites (content : Text) (rs : List (NodeId × Fragment))
    (edits : List (Position × Fragment)) : Prop where
  ordered : (edits.map (·.1)).Sublist (parse content).nodes
  /-- The nodes are those that are replaced while nothing around them is. -/
  topmost : ∀ p ∈ (parse content).nodes, p ∈ edits.map (·.1) ↔
    p.id ∈ rs.map (·.1) ∧ ∀ a ∈ rs.map (·.1), ¬ (parse content).Encloses a p
  givenLast : ∀ p f, (p, f) ∈ edits → GivenLast rs p.id f
  /-- What gives way to the fragment is in the source, and in its text, where it is said to be. -/
  inPlace : ∀ p ∈ edits.map (·.1), p.node.slice.In content ∧
    ((parse content).textSlice p).In (parse content).text
  apart : Edit.Apart (edits.map fun (p, f) => p.edit f) ∧
    Edit.Apart (edits.map fun (p, f) => (parse content).textEdit p f)
  html : ((parse content).replaceAll rs).html = splice 0 content (edits.map fun (p, f) => p.edit f)
  text : ((parse content).replaceAll rs).text =
    splice 0 (parse content).text (edits.map fun (p, f) => (parse content).textEdit p f)

theorem rewrites_replaced (content : Text) (rs : List (NodeId × Fragment)) :
    Rewrites content rs ((parse content).replaceAll rs).replaced := by
  set d := (parse content).replaceAll rs with hd
  have hnodes : d.nodes = (parse content).nodes := nodes_replaceAll _ rs
  have horiginal : d.original = parse content := original_replaceAll _ rs
  have hforest : d.forest = (parse content).forest := forest_replaceAll _ rs
  have htile : Slice.Tile 0 d.forest.slices content.utf8Size :=
    hforest ▸ (Forest.parse_tile content).1
  have hfst : d.replaced.map (·.1) = (parse content).nodes.filter fun p =>
      p.id ∈ d.replacedIds && !p.isBelow d.replacedIds := by
    rw [map_fst_replaced, hnodes]
  obtain ⟨hhtml, htext⟩ := write_eq_splice horiginal
  refine { ordered := ?_, topmost := ?_, givenLast := ?_, inPlace := ?_, apart := ?_
           html := hhtml, text := htext }
  · rw [hfst]
    exact List.filter_sublist
  · intro p hp
    rw [hfst, List.mem_filter, Bool.and_eq_true, decide_eq_true_eq, Bool.not_eq_true',
      ← Bool.not_eq_true, isBelow_iff hp]
    simp only [hp, true_and, hd, mem_replacedIds_afterReplacing, not_exists, not_and]
  · intro p f h
    obtain ⟨q, -, hq⟩ := List.mem_filterMap.1 h
    obtain ⟨g, hg, heq⟩ := Option.map_eq_some_iff.1 hq
    cases heq
    exact replacement?_afterReplacing.1 hg
  · intro p hp
    rw [hfst] at hp
    have hmem := (List.mem_filter.1 hp).1
    exact ⟨slice_in_source hmem, textSlice_in hmem⟩
  · refine ⟨map_edit_replaced d ▸ Forest.edits_apart htile, ?_⟩
    have hmap := d.map_replaced .plain (parse content).textSlice
    rw [hforest] at hmap
    exact hmap ▸ Forest.editsAt_apart (placed_textSlice content)

/-- **What counts of any replacements is the fragment that each node was given last, and of nodes
one inside the other the outermost.** The markup that is written is the source, and the text that
is written is its text, with these fragments in the places of these nodes. So a replacement inside
a replaced node changes nothing, and neither does the order of replacements. -/
theorem rewrites_afterReplacing (content : Text) (rs : List (NodeId × Fragment)) :
    let d := (parse content).replaceAll rs
    (∃ edits, Rewrites content rs edits) ∧
    (d.html = (d.roots.filterMap d.node?).flatMap d.outerHtml ∧
      d.text = (d.roots.filterMap d.node?).flatMap d.textOf) ∧
    (∀ p ∈ (parse content).nodes, ∀ a ∈ rs.map (·.1), (parse content).Encloses a p → ∀ f,
      (d.replace p.id f).html = d.html ∧ (d.replace p.id f).text = d.text) ∧
    ∀ rs', (∀ id f, GivenLast rs id f ↔ GivenLast rs' id f) →
      ((parse content).replaceAll rs').html = d.html ∧
        ((parse content).replaceAll rs').text = d.text := by
  intro d
  refine ⟨⟨_, rewrites_replaced content rs⟩,
    ⟨d.write_eq_flatMap_roots .html, d.write_eq_flatMap_roots .plain⟩,
    fun p hp a ha hencloses f => ?_, fun rs' hsame => ?_⟩
  · have hinside : (d.replace p.id f).replaced = d.replaced := by
      refine replaced_replace_inside ?_ (mem_replacedIds_afterReplacing.2 ha)
        ((encloses_replaceAll hp rs a).2 hencloses) f
      rwa [nodes_replaceAll]
    have horiginal : d.original = parse content := original_replaceAll _ rs
    have hd := write_eq_splice horiginal
    have hd' := write_eq_splice (d := d.replace p.id f) horiginal
    rw [hinside] at hd'
    exact ⟨hd'.1.trans hd.1.symm, hd'.2.trans hd.2.symm⟩
  · have hreplacement : ((parse content).replaceAll rs').replacement? = d.replacement? := by
      funext id
      refine Option.ext fun f => ?_
      rw [replacement?_afterReplacing, replacement?_afterReplacing, hsame]
    have hwrite (v : View) : ((parse content).replaceAll rs').write v = d.write v := by
      rw [write_eq, write_eq, hreplacement, forest_replaceAll, forest_replaceAll]
    exact ⟨hwrite .html, hwrite .plain⟩

/-- An element and one inside it, each replaced twice, and a text behind them. -/
theorem rewrites_afterReplacing_nested :
    let content := "<p>a&lt;<b>x<i>y</i></b></p>&amp;<u>z</u>".toList
    let f : Fragment := ⟨"<i>1</i>".toList, ['1']⟩
    let g : Fragment := ⟨"<em>&gt;</em>".toList, ['>']⟩
    let rs : List (NodeId × Fragment) := [(4, f), (2, f), (4, g), (8, f), (2, g)]
    let rs' : List (NodeId × Fragment) := [(2, g), (8, f), (4, g)]
    let d := (parse content).replaceAll rs
    d.html = "<p>a&lt;<em>&gt;</em></p>&amp;<u><i>1</i></u>".toList ∧
      d.text = "a<>&1".toList ∧ (∃ edits, Rewrites content rs edits) ∧
      (d.replace 5 f).html = d.html ∧ (d.replace 5 f).text = d.text ∧
      ((parse content).replaceAll rs').html = d.html ∧
      ((parse content).replaceAll rs').text = d.text := by
  intro content f g rs rs' d
  obtain ⟨hedits, -, hinside, horder⟩ := rewrites_afterReplacing content rs
  obtain ⟨p, hp, hid, habove⟩ : ∃ p ∈ (parse content).nodes, p.id = 5 ∧
      2 ∈ p.ancestors.map (·.1) := by decide +kernel
  have hkept := hinside p hp 2 (by decide) ((encloses_iff hp).2 habove) f
  rw [hid] at hkept
  have hothers := horder rs' fun id f => by
    rw [← lookup_reverse_eq_some, ← lookup_reverse_eq_some]
    by_cases h : id ∈ [2, 8, 4]
    · fin_cases h <;> rfl
    · simp only [List.mem_cons, not_or] at h
      simp [rs, rs', List.lookup_cons, beq_false_of_ne h.1, beq_false_of_ne h.2.1,
        beq_false_of_ne h.2.2.1]
  exact ⟨by decide +kernel, by decide +kernel, hedits, hkept.1, hkept.2, hothers.1, hothers.2⟩

end Document

end RichContent
