/-
Parsing loses nothing: every node of a parsed document is a stretch of the
source and is written as that stretch.

The stretches of the nodes at the top tile the source, and inside an element
the start tag, the children and the end tag tile the stretch of the element.
So what is extracted from a source is written there, one entity inside another
or apart from it (`parse_lossless`).
-/
import Mathlib.Data.List.Basic
import RichContent.Editor.Extract
import RichContent.Proofs.Markup.Positions

namespace RichContent

open Text

namespace Document

/-- The stretches of the source that some nodes are, by their numbers. -/
def slicesOf (d : Document) (ids : List NodeId) : List Slice :=
  ids.filterMap fun id => (d.node? id).map (·.node.slice)

/-- A node is found by its number. -/
theorem node?_of_mem {d : Document} {p : Position} (h : p ∈ d.nodes) : d.node? p.id = some p := by
  have hnd : (d.nodes.map (·.id)).Nodup := Forest.positions_nodup d.forest 0 []
  rw [node?]
  generalize d.nodes = nodes at h hnd
  induction nodes with
  | nil => exact absurd h List.not_mem_nil
  | cons q rest ih =>
    rw [List.map_cons, List.nodup_cons] at hnd
    rcases List.mem_cons.1 h with rfl | h
    · simp
    · have hne : q.id ≠ p.id := fun he => hnd.1 (he ▸ List.mem_map_of_mem h)
      rw [List.find?_cons_of_neg (by simpa using hne)]
      exact ih h hnd.2

/-- A node is the only one with its number. -/
theorem eq_of_id {d : Document} {p q : Position} (hp : p ∈ d.nodes) (hq : q ∈ d.nodes)
    (h : p.id = q.id) : p = q := by
  have hfound := node?_of_mem hp
  rw [h, node?_of_mem hq] at hfound
  exact (Option.some.inj hfound).symm

/-- The nodes at the top of a part of the document are found by their numbers. -/
theorem slicesOf_siblings {d : Document} {f : Forest} {n : NodeId}
    {ancestors : List (NodeId × StartTag)}
    (h : ∀ p ∈ f.topPositions n ancestors, p ∈ d.nodes) :
    d.slicesOf (f.siblings n) = f.top.map Node.slice := by
  rw [slicesOf, ← Forest.topPositions_id f n ancestors, ← Forest.topPositions_node f n ancestors,
    List.filterMap_map, List.map_map, ← List.filterMap_eq_map]
  apply List.filterMap_congr
  intro p hp
  simp [node?_of_mem (h p hp)]

/-- An element is tiled by its start tag, its children and its end tag. -/
theorem tile_element {d : Document} {p : Position} (hd : d.replacements = []) (hp : p ∈ d.nodes)
    {b : Nat} (ht : Slice.Tile 0 d.forest.slices b) {tag : StartTag} {opening : Slice}
    {children : Forest} {closing : Option Slice}
    (hnode : p.node = .element tag opening children closing) :
    Slice.Tile p.node.slice.start (opening :: d.slicesOf (d.children p) ++ closing.toList)
      p.node.slice.stop := by
  have hchildren : d.slicesOf (d.children p) = children.top.map Node.slice := by
    simp only [Document.children, replacement?, hd, List.lookup_nil, hnode, Node.children]
    exact slicesOf_siblings fun q hq =>
      Forest.mem_positions_of_child hp hnode (Forest.mem_positions_of_top hq)
  obtain ⟨l, r, hs⟩ := Forest.slices_infix hp
  rw [← hs] at ht
  obtain ⟨a, c, hm, -⟩ := ht.run_in
  obtain ⟨hstart, hstop⟩ := Node.slice_of_tile hm
  rw [hchildren, hstart, hstop]
  rw [hnode] at hm
  obtain ⟨e, ⟨ho, hne, hch⟩, hcl⟩ := (Slice.tile_append (l := opening :: children.slices)).1 hm
  exact Slice.tile_append.2 ⟨e, ⟨ho, hne, Forest.tile_top hch⟩, hcl⟩

/-- A node of a parsed document is what stands in the source at its place. -/
theorem slice_in_source {source : Text} {p : Position} (hp : p ∈ (parse source).nodes) :
    p.node.slice.In source := by
  obtain ⟨htile, hjoin⟩ := Forest.parse_tile source
  obtain ⟨l, r, hs⟩ := Forest.slices_infix hp
  rw [show (parse source).forest = Forest.parse source from rfl] at hs
  rw [← hs] at htile
  obtain ⟨a, c, hm, hin⟩ := htile.run_in
  rw [hs, hjoin, ← (Node.slice_of_tile hm).1] at hin
  exact hin

/-- **Parsing keeps every byte, and every node is a stretch of the source.** -/
theorem parse_lossless (source : Text) :
    (∀ p ∈ (parse source).nodes, p.node.slice.In source ∧
      (parse source).outerHtml p = p.node.slice.text) ∧
    (∀ p ∈ (parse source).nodes, ∀ tag opening children closing,
      p.node = .element tag opening children closing →
      Slice.Tile p.node.slice.start
        (opening :: (parse source).slicesOf ((parse source).children p) ++ closing.toList)
        p.node.slice.stop) ∧
    Slice.Tile 0 ((parse source).slicesOf (parse source).roots) source.utf8Size ∧
    (parse source).html = source ∧
    (∀ selector names entities, extract source selector names = .ok entities →
      ∃ s, Selector.read selector = .ok s ∧
        entities.map (·.raw) = ((parse source).select s).map (·.node.slice.text) ∧
        ((parse source).select s).Sublist (parse source).nodes ∧
        ((parse source).select s).Pairwise fun p q => p.node.slice.Precedes q.node.slice) := by
  obtain ⟨htile, hjoin⟩ := Forest.parse_tile source
  refine ⟨fun p hp => ⟨slice_in_source hp, Node.write_html p.node p.id⟩,
    fun p hp tag opening children closing hnode => tile_element rfl hp htile hnode, ?_, ?_, ?_⟩
  · rw [roots, slicesOf_siblings fun p hp => Forest.mem_positions_of_top hp]
    exact Forest.tile_top htile
  · rw [html, write_eq]
    exact (Forest.write_html _ _).trans hjoin
  · intro selector names entities hex
    rw [extract] at hex
    cases hs : Selector.read selector with
    | error e => simp [hs, Except.map] at hex
    | ok s =>
      simp only [hs, Except.map, Except.ok.injEq] at hex
      have hsub : ((parse source).select s).Sublist (parse source).nodes := List.filter_sublist
      refine ⟨s, rfl, ?_, hsub, (Forest.positions_pairwise htile).sublist hsub⟩
      rw [← hex, Document.entities, List.map_map, List.map_map]
      exact List.map_congr_left fun p _ => Node.write_html p.node p.id

/-- An element that is left open, inside one that is closed, extracted together with it. -/
theorem parse_lossless_left_open :
    ∃ p ∈ (parse "<b class=x>a<i class=x></b>".toList).nodes, ∃ entities s,
      extract "<b class=x>a<i class=x></b>".toList ".x".toList [] = .ok entities ∧
      p.node.slice = ⟨12, "<i class=x>".toList⟩ ∧
      p.node.slice.In "<b class=x>a<i class=x></b>".toList ∧
      entities.map (·.raw) = ((parse "<b class=x>a<i class=x></b>".toList).select s).map
        (·.node.slice.text) := by
  have h := parse_lossless "<b class=x>a<i class=x></b>".toList
  have hp : (⟨2, [(0, ⟨"b".toList, [⟨"class".toList, some "x".toList⟩], false⟩)],
      .element ⟨"i".toList, [⟨"class".toList, some "x".toList⟩], false⟩
        ⟨12, "<i class=x>".toList⟩ .nil none⟩ : Position) ∈
      (parse "<b class=x>a<i class=x></b>".toList).nodes := by decide +kernel
  have hex : extract "<b class=x>a<i class=x></b>".toList ".x".toList [] = .ok
      [⟨"<b class=x>a<i class=x></b>".toList, "a<i class=x>".toList, "a".toList, []⟩,
        ⟨"<i class=x>".toList, [], [], []⟩] := by decide +kernel
  obtain ⟨s, -, hraw, -⟩ := h.2.2.2.2 _ _ _ hex
  exact ⟨_, hp, _, s, hex, rfl, (h.1 _ hp).1, hraw⟩

end Document

end RichContent
