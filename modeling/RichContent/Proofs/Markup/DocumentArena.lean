/-
The table of nodes that a document stands for.

The table of a source is the table of its document (`arena_parse`), and it
stays so with every replacement (`arena_replace`). The nodes that are visited
are the nodes that the document reaches (`visit_siblings`), so what has been
proved of tables holds of documents (`arena_afterReplacing`).
-/
import RichContent.Proofs.Markup.Attributes
import RichContent.Proofs.Markup.Descendants
import RichContent.Proofs.Markup.Planting
import RichContent.Proofs.Markup.Traversal

namespace RichContent

open Text

namespace Document

/-- What is in the cell of a node. -/
def cellKind (d : Document) (p : Position) : Cell.Kind :=
  match d.replacement? p.id, p.node with
  | some f, _ => .fragment f
  | none, .text s => .text s
  | none, .raw s => .raw s
  | none, .element tag opening _ closing => .element tag opening closing

def cell (d : Document) (p : Position) : Cell := ⟨d.cellKind p, p.parent?, d.children p⟩

/-- The table that the forest of a document and its replacements stand for. -/
def arena (d : Document) : Arena := ⟨d.source, d.nodes.map d.cell, d.roots⟩

variable {d : Document} {p : Position} {id : NodeId}

/-- The nodes are listed in the order of their numbers. -/
theorem getElem?_nodes (d : Document) (k : Nat) : d.nodes[k]? = d.node? k := by
  have hids : d.nodes.map (·.id) = List.range' 0 d.forest.size := Forest.positions_id _ _ _
  cases hk : d.nodes[k]? with
  | some p =>
    have hid : (d.nodes.map (·.id))[k]? = some p.id := by rw [List.getElem?_map, hk]; rfl
    rw [hids, List.getElem?_eq_some_iff] at hid
    obtain ⟨hlt, hid⟩ := hid
    rw [List.getElem_range', Nat.zero_add, Nat.one_mul] at hid
    rw [hid, node?_of_mem (List.mem_of_getElem? hk)]
  | none =>
    refine (List.find?_eq_none.2 fun q hq heq => ?_).symm
    have hmem : q.id ∈ List.range' 0 d.forest.size := hids ▸ List.mem_map_of_mem hq
    have hlength := congrArg List.length hids
    rw [List.length_map, List.length_range'] at hlength
    have hle := List.getElem?_eq_none_iff.1 hk
    have hlt := (List.mem_range'_1.1 hmem).2
    rw [beq_iff_eq.1 heq] at hlt
    omega

theorem cell?_arena (d : Document) (id : NodeId) : d.arena.cell? id = (d.node? id).map d.cell := by
  rw [Arena.cell?, arena, List.getElem?_map, getElem?_nodes]

theorem replacement?_replace (d : Document) (id : NodeId) (f : Fragment) (k : NodeId) :
    (d.replace id f).replacement? k = if id = k then some f else d.replacement? k := by
  rw [replacement?, replace, List.lookup_cons]
  by_cases hk : id = k
  · simp [hk]
  · have hne : (k == id) = false := beq_eq_false_iff_ne.2 (Ne.symm hk)
    rw [hne, if_neg hk]
    rfl

theorem cell_replace (d : Document) (id : NodeId) (f : Fragment) (p : Position) :
    (d.replace id f).cell p = if id = p.id then (d.cell p).replace f else d.cell p := by
  rw [cell, cellKind, children, replacement?_replace]
  by_cases hid : id = p.id
  · rw [if_pos hid, if_pos hid]
    rfl
  · rw [if_neg hid, if_neg hid]
    rfl

/-- **A replacement in the document is a replacement in its table.** -/
theorem arena_replace (d : Document) (id : NodeId) (f : Fragment) :
    (d.replace id f).arena = d.arena.replace id f := by
  refine Arena.eq_of_cell? rfl rfl fun k => ?_
  have hnode : (d.replace id f).node? k = d.node? k := rfl
  rw [Arena.replace, Arena.cell?_update, cell?_arena, cell?_arena, hnode, Option.map_map]
  refine Option.map_congr fun p hp => ?_
  rw [node?] at hp
  have hid := List.find?_some hp
  rw [beq_iff_eq] at hid
  subst hid
  exact cell_replace d id f p

theorem arena_replaceAll (d : Document) (rs : List (NodeId × Fragment)) :
    (d.replaceAll rs).arena = d.arena.replaceAll rs := by
  induction rs generalizing d with
  | nil => rfl
  | cons r rs ih => exact (ih _).trans (congrArg (Arena.replaceAll · rs) (arena_replace ..))

/-- The cells of a forest are those of its nodes. -/
theorem cells_eq_map (source : Text) (f : Forest) (n : NodeId)
    (ancestors : List (NodeId × StartTag)) :
    f.cells n (ancestors.head?.map (·.1)) = (f.positions n ancestors).map (parse source).cell := by
  induction f generalizing n ancestors with
  | nil => rfl
  | text s rest ih | raw s rest ih => exact congrArg _ (ih (n + 1) ancestors)
  | element tag opening children closing rest ihc ihr =>
    rw [Forest.positions_element, List.map_cons, List.map_append, ← ihc, ← ihr]
    rfl

/-- **The table of a source is the table of its document.** -/
theorem arena_parse (source : Text) : (parse source).arena = Arena.parse source := by
  have hcells := cells_eq_map source (Forest.parse source) 0 []
  rw [Arena.parse_eq_plant, Arena.plant_eq _ (by simp)]
  exact congrArg (Arena.mk source · _) hcells.symm

/-- **Parsing and replacing in a table is parsing and replacing in a document.** -/
theorem arena_replaceAll_parse (content : Text) (rs : List (NodeId × Fragment)) :
    (Arena.parse content).replaceAll rs = ((parse content).replaceAll rs).arena := by
  rw [arena_replaceAll, arena_parse]

/-! ## The nodes that are visited -/

theorem children_of_replaced {f : Fragment} (h : d.replacement? p.id = some f) :
    d.children p = [] := by
  rw [children, h]

theorem children_of_kept (h : d.replacement? p.id = none) :
    d.children p = p.node.children.siblings (p.id + 1) := by
  rw [children, h]

theorem children_of_nil (h : p.node.children = .nil) : d.children p = [] := by
  rw [children, h]
  split <;> rfl

theorem visit_node (hp : p ∈ d.nodes) (rounds : Nat) (stack : List NodeId) :
    d.arena.visit (rounds + 1) (p.id :: stack) =
      (d.arena.visit rounds (d.children p ++ stack)).map (p.id :: ·) :=
  Arena.visit_cons (by rw [cell?_arena, node?_of_mem hp]; rfl) rounds stack

/-- When the siblings of a forest are on the stack, the nodes of the forest that the document
reaches are visited. -/
theorem visit_siblings {f : Forest} {n : NodeId} {ancestors : List (NodeId × StartTag)}
    (hf : ∀ p ∈ f.positions n ancestors, p ∈ d.nodes) {rounds : Nat} {stack out : List NodeId}
    (h : d.arena.visit rounds stack = some out) :
    ∃ rounds', d.arena.visit rounds' (f.siblings n ++ stack) =
      some ((f.walk (fun id => (d.replacement? id).isSome) n ancestors).map (·.id) ++ out) := by
  induction f generalizing n ancestors rounds stack out with
  | nil => exact ⟨rounds, h⟩
  | text s rest ih | raw s rest ih =>
    obtain ⟨hmem, hrest⟩ := List.forall_mem_cons.1 hf
    obtain ⟨rounds', hvisit⟩ := ih hrest h
    refine ⟨rounds' + 1, (visit_node hmem rounds' (rest.siblings (n + 1) ++ stack)).trans ?_⟩
    rw [children_of_nil, List.nil_append, hvisit]
    · rfl
    · rfl
  | element tag opening children closing rest ihc ihr =>
    rw [Forest.positions_element] at hf
    obtain ⟨hmem, hbelow⟩ := List.forall_mem_cons.1 hf
    obtain ⟨hchildren, hrest⟩ := List.forall_mem_append.1 hbelow
    -- from the right, because what is left on the stack is visited behind the siblings
    obtain ⟨rounds', hsiblings⟩ := ihr hrest h
    have hvisit := fun k => visit_node hmem k (rest.siblings (n + 1 + children.size) ++ stack)
    cases hreplaced : d.replacement? n with
    | some f =>
      refine ⟨rounds' + 1, (hvisit rounds').trans ?_⟩
      rw [children_of_replaced hreplaced, List.nil_append, hsiblings]
      simp [Forest.walk, hreplaced]
    | none =>
      obtain ⟨rounds'', hbelow⟩ := ihc hchildren hsiblings
      refine ⟨rounds'' + 1, (hvisit rounds'').trans ?_⟩
      rw [children_of_kept hreplaced, Node.children, hbelow]
      simp [Forest.walk, hreplaced]

/-- **The nodes that are visited are the nodes that the document reaches.** -/
theorem eq_reachable_of_descendants {out : List NodeId} (h : d.arena.descendants = some out) :
    out = d.reachable.map (·.id) := by
  obtain ⟨rounds, hvisit⟩ := visit_siblings (d := d) (fun p hp => hp) (Arena.visit_nil 0)
  rw [List.append_nil, List.append_nil] at hvisit
  exact Arena.visit_unique h hvisit

/-! ## The invariant -/

theorem start?_cell {s : Nat} (h : s ∈ (d.cell p).start?) : p.node.slice.start = s := by
  rw [cell, cellKind] at h
  split at h
  · cases h
  all_goals
    rename_i hnode
    rw [hnode]
    exact Option.some.inj h

theorem element_of_cell {tag : StartTag} {opening : Slice} {closing : Option Slice}
    (h : (d.cell p).kind = .element tag opening closing) :
    ∃ children, p.node = .element tag opening children closing := by
  rw [cell, cellKind] at h
  split at h
  case h_4 hnode =>
    cases h
    exact ⟨_, hnode⟩
  all_goals cases h

/-- **After any replacements the parents, the children and the nodes at the top agree** in the table
of nodes that a source is put into. A node is reached along one path at most, its parents come to an
end, and the nodes are numbered as they begin in the source. The nodes that a path leads to are
visited in this order, each once, and they are those that the document reaches; before the first
replacement they are all nodes. The elements have the attributes that are written first in their
tags. -/
theorem arena_afterReplacing (content : Text) (rs : List (NodeId × Fragment)) :
    let a := (Arena.parse content).replaceAll rs
    let d := (parse content).replaceAll rs
    a = d.arena ∧ a.WellFormed ∧
      (∀ id l l', a.Path id l → a.Path id l' → l = l') ∧
      (∀ id < a.next, ∃ l, a.ParentsEnd id l ∧ l.Pairwise (· > ·)) ∧
      (∃ out, a.descendants = some out ∧
        (∀ rounds, a.next ≤ rounds → a.visit rounds a.roots = some out) ∧ out.Pairwise (· < ·) ∧
        (∀ id, id ∈ out ↔ ∃ l, a.Path id l) ∧ out = d.reachable.map (·.id)) ∧
      (Arena.parse content).descendants = some (List.range (Arena.parse content).next) ∧
      a.cells.Pairwise (fun x y => ∀ s ∈ x.start?, ∀ t ∈ y.start?, s < t) ∧
      ∀ x ∈ a.cells, ∀ tag opening closing,
        x.kind = .element tag opening closing → tag.KeepsFirst opening.text := by
  intro a d
  obtain ⟨hparsed, hnone⟩ := Arena.wellFormed_parse content
  have ha : a.WellFormed := hparsed.replaceAll rs
  have harena : a = d.arena := arena_replaceAll_parse content rs
  have hnodes : d.nodes = (parse content).nodes := nodes_replaceAll ..
  have hcells : a.cells = d.nodes.map d.cell := congrArg Arena.cells harena
  refine ⟨harena, ha, fun id l l' => ha.path_unique, fun id hid => ?_, ?_,
    hparsed.descendants_eq_range hnone, ?_, fun x hx tag opening closing hkind => ?_⟩
  · obtain ⟨l, hl⟩ := ha.exists_parentsEnd hid
    exact ⟨id :: l, hl⟩
  · obtain ⟨out, hout, hsorted, hmem⟩ := ha.exists_descendants
    refine ⟨out, hout, fun _ => Arena.visit_of_le hout, hsorted, hmem, ?_⟩
    rw [harena] at hout
    exact eq_reachable_of_descendants hout
  · rw [hcells, hnodes, List.pairwise_map]
    refine (Forest.positions_pairwise (Forest.parse_tile content).1).imp ?_
    intro p q hpq s hs t ht
    rw [← start?_cell hs, ← start?_cell ht]
    exact hpq.1
  · rw [hcells, hnodes] at hx
    obtain ⟨p, hp, rfl⟩ := List.mem_map.1 hx
    obtain ⟨children, hnode⟩ := element_of_cell hkind
    rw [← Forest.parse_of_node hp hnode]
    exact StartTag.keepsFirst_parse opening.text

/-- A node that is not reached any more, and an attribute that is written twice. -/
theorem arena_afterReplacing_detached :
    let content := "<a X=1 x=2><b>t</b></a>u".toList
    let a := (Arena.parse content).replaceAll [(1, ⟨"<i>".toList, []⟩)]
    let tag : StartTag := ⟨['a'], [⟨['x'], some ['1']⟩], false⟩
    a.descendants = some [0, 1, 3] ∧ a.Parent 2 1 ∧ ¬a.Child 1 2 ∧
      (∃ l, a.ParentsEnd 2 l ∧ l.Pairwise (· > ·)) ∧
      tag.find? ['x'] = (StartTag.scanned "a X=1 x=2".toList).find? (·.name == ['x']) := by
  intro content a tag
  obtain ⟨harena, hwell, -, hends, ⟨out, hout, -, -, -, hreached⟩, -, -, htags⟩ :=
    arena_afterReplacing content [(1, ⟨"<i>".toList, []⟩)]
  have hcells : a = ⟨content,
      [⟨.element tag ⟨0, "<a X=1 x=2>".toList⟩ (some ⟨19, "</a>".toList⟩), none, [1]⟩,
        ⟨.fragment ⟨"<i>".toList, []⟩, some 0, []⟩, ⟨.text ⟨14, ['t']⟩, some 1, []⟩,
        ⟨.text ⟨23, ['u']⟩, none, []⟩], [0, 3]⟩ := harena.trans (by decide +kernel)
  have hids : out = [0, 1, 3] := hreached.trans (by decide +kernel)
  have hlt : 2 < a.next := by
    rw [hcells]
    decide
  have hfirst : ⟨.element tag ⟨0, "<a X=1 x=2>".toList⟩ (some ⟨19, "</a>".toList⟩), none, [1]⟩ ∈
      a.cells := by
    rw [hcells]
    exact List.mem_cons_self
  refine ⟨hids ▸ hout, ⟨_, by rw [hcells]; rfl, rfl⟩, ?_, hends 2 hlt, ?_⟩
  · rintro ⟨x, hx, hmem⟩
    rw [hcells] at hx
    cases hx
    exact absurd hmem List.not_mem_nil
  · exact (htags _ hfirst tag _ _ rfl).first ['x']

end Document

end RichContent
