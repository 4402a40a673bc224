/-
Documents in which nodes have been replaced.

What is reached from the top are the nodes with nothing replaced around them
(`reachable_eq_filter`), and what a selector picks out of them is what it picks
out of the source, less the nodes within a replaced one (`select_eq_filter`).
The document is written as its source with one edit for each replaced node
that is reached (`html_eq_splice`).
-/
import Mathlib.Data.List.Basic
import RichContent.Editor.Compile
import RichContent.Proofs.Markup.Places

namespace RichContent

open Text

/-! ## What is reached -/

namespace Forest

/-- What is around a forest is around each of its nodes. -/
theorem ancestors_suffix {f : Forest} {n : NodeId} {ancestors : List (NodeId × StartTag)}
    {p : Position} (h : p ∈ f.positions n ancestors) : ancestors <:+ p.ancestors := by
  induction f generalizing n ancestors with
  | nil => exact absurd h List.not_mem_nil
  | text s rest ih =>
    rcases List.mem_cons.1 h with rfl | h
    · exact List.suffix_refl _
    · exact ih h
  | raw s rest ih =>
    rcases List.mem_cons.1 h with rfl | h
    · exact List.suffix_refl _
    · exact ih h
  | element tag opening children closing rest ihc ihr =>
    rw [positions_element] at h
    rcases List.mem_cons.1 h with rfl | h
    · exact List.suffix_refl _
    · rcases List.mem_append.1 h with h | h
      · exact (List.suffix_cons (n, tag) ancestors).trans (ihc h)
      · exact ihr h

theorem mem_ancestors {f : Forest} {n : NodeId} {outer : NodeId × StartTag}
    {ancestors : List (NodeId × StartTag)} {p : Position}
    (h : p ∈ f.positions n (outer :: ancestors)) : outer ∈ p.ancestors :=
  (ancestors_suffix h).subset List.mem_cons_self

/-- Leaving out what is below the nodes of `closed` leaves the nodes with none of them around. -/
theorem walk_eq_filter (closed : NodeId → Bool) (f : Forest) (n : NodeId)
    {ancestors : List (NodeId × StartTag)} (h : ∀ a ∈ ancestors, closed a.1 = false) :
    f.walk closed n ancestors =
      (f.positions n ancestors).filter fun p => p.ancestors.all fun a => !closed a.1 := by
  have hall : (ancestors.all fun a => !closed a.1) = true := by simpa using h
  induction f generalizing n ancestors with
  | nil => rfl
  | text s rest ih => simp [walk, hall, ih (n + 1) h hall]
  | raw s rest ih => simp [walk, hall, ih (n + 1) h hall]
  | element tag opening children closing rest ihc ihr =>
    rw [walk, positions_element, List.filter_cons, List.filter_append, ← ihr _ h hall]
    simp only [hall, if_true]
    congr 2
    cases hc : closed n with
    | false =>
      exact ihc (n + 1) (List.forall_mem_cons.2 ⟨hc, h⟩) (by rw [List.all_cons, hall, hc]; rfl)
    | true =>
      symm
      rw [if_pos rfl, List.filter_eq_nil_iff]
      intro p hp hp'
      simpa [hc] using List.all_eq_true.1 hp' _ (mem_ancestors hp)

end Forest

/-! ## What is picked out -/

namespace Position

/-- Is something around the node one of some nodes? -/
def isBelow (p : Position) (ids : List NodeId) : Bool := p.ancestors.any (·.1 ∈ ids)

/-- Is the node or something around it one of some nodes? -/
def isWithin (p : Position) (ids : List NodeId) : Bool := p.id ∈ ids || p.isBelow ids

theorem isBelow_congr (p : Position) {l m : List NodeId} (h : ∀ id, id ∈ l ↔ id ∈ m) :
    p.isBelow l = p.isBelow m := by
  simp only [isBelow, h]

theorem isWithin_congr (p : Position) {l m : List NodeId} (h : ∀ id, id ∈ l ↔ id ∈ m) :
    p.isWithin l = p.isWithin m := by
  simp only [isWithin, isBelow_congr p h, h]

theorem not_mem_of_isWithin {p : Position} {l : List NodeId} (h : p.isWithin l = false) :
    p.id ∉ l := by
  intro hmem
  simp [isWithin, hmem] at h

theorem isBelow_append (p : Position) (l m : List NodeId) :
    p.isBelow (l ++ m) = (p.isBelow l || p.isBelow m) := by
  rw [Bool.eq_iff_iff]
  simp only [isBelow, List.mem_append, Bool.or_eq_true, decide_eq_true_eq, List.any_eq_true]
  grind

theorem isWithin_append (p : Position) (l m : List NodeId) :
    p.isWithin (l ++ m) = (p.isWithin l || p.isWithin m) := by
  rw [Bool.eq_iff_iff]
  simp only [isWithin, isBelow, List.mem_append, Bool.or_eq_true, decide_eq_true_eq,
    List.any_eq_true]
  grind

end Position

namespace Document

/-- The numbers of the nodes that have been replaced. -/
def replacedIds (d : Document) : List NodeId := d.replacements.map (·.1)

theorem isSome_replacement? (d : Document) (id : NodeId) :
    (d.replacement? id).isSome = decide (id ∈ d.replacedIds) := by
  rw [replacement?, replacedIds]
  induction d.replacements with
  | nil => rfl
  | cons r rest ih =>
    obtain ⟨k, f⟩ := r
    by_cases h : id = k
    · simp [h]
    · have hk : (id == k) = false := by simpa using h
      simp [List.lookup_cons, hk, h, ih]

theorem replacement?_eq_none {d : Document} {id : NodeId} :
    d.replacement? id = none ↔ id ∉ d.replacedIds := by
  have h := isSome_replacement? d id
  cases hr : d.replacement? id <;> simp_all

/-- The nodes that are reached are those with nothing replaced around them. -/
theorem reachable_eq_filter (d : Document) :
    d.reachable = d.nodes.filter fun p => !p.isBelow d.replacedIds := by
  rw [reachable, Forest.walk_eq_filter _ _ _ (by simp)]
  apply List.filter_congr
  intro p _
  simp only [isSome_replacement?, Position.isBelow]
  rw [List.all_eq_not_any_not]
  simp

/-- The document before anything was replaced. -/
def original (d : Document) : Document := { d with replacements := [] }

theorem tag?_original (d : Document) (p : Position) :
    d.tag? p = if p.id ∈ d.replacedIds then none else d.original.tag? p := by
  split
  · rename_i h
    obtain ⟨f, hf⟩ := Option.isSome_iff_exists.1 ((isSome_replacement? d p.id).trans (by simpa))
    simp [tag?, hf]
  · rename_i h
    simp only [tag?, replacement?_eq_none.2 h]
    rfl

/-- Nothing is changed around a node with nothing replaced around it. -/
theorem around_original {d : Document} {p : Position} (h : p.isBelow d.replacedIds = false) :
    d.around p = d.original.around p := by
  apply List.map_congr_left
  rintro ⟨id, tag⟩ ha
  have hid : id ∉ d.replacedIds := by simpa using List.any_eq_false.1 h _ ha
  simp only [replacement?_eq_none.2 hid]
  rfl

end Document

/-- What is no element matches no selector. -/
theorem Selector.holds_none (s : Selector) (around : List Surrounding) :
    s.holds none around = false := by
  rw [holds, List.any_eq_false]
  intro chain _
  rw [Chain.holds]
  split <;> simp

namespace Document

/-- **What a selector picks out is what it picks out of the source, less what is within a
replaced node.** -/
theorem select_eq_filter (d : Document) (s : Selector) :
    d.select s = (d.original.select s).filter fun p => !p.isWithin d.replacedIds := by
  rw [select, reachable_eq_filter, List.filter_filter]
  rw [show d.original.select s = d.nodes.filter (d.original.isMatch s) from rfl,
    List.filter_filter]
  apply List.filter_congr
  intro p _
  rw [Position.isWithin]
  cases hb : p.isBelow d.replacedIds with
  | true => simp
  | false =>
    rw [isMatch, tag?_original, around_original hb]
    by_cases hid : p.id ∈ d.replacedIds
    · simp [hid, Selector.holds_none]
    · simp [hid, isMatch]

end Document

/-! ## What is written -/

/-- The edit of the source that puts a fragment in the place of a node. -/
def Position.edit (p : Position) (f : Fragment) : Edit := ⟨p.node.slice.span, f.html⟩

namespace Forest

/-- The edits that replacements make, one for each replaced node that is reached. -/
def edits (replaced : Replacements) (n : NodeId) (ancestors : List (NodeId × StartTag))
    (f : Forest) : List Edit :=
  (f.walk (fun id => (replaced id).isSome) n ancestors).filterMap
    fun p => (replaced p.id).map p.edit

variable {f : Forest} {n : NodeId} {ancestors : List (NodeId × StartTag)} {a b : Nat}

theorem fresh_html (f : Forest) : f.fresh .html = Slice.join f.slices := by
  rw [← write_none .html f 0, write_html]

/-- In the markup the place of a node is the stretch of the source that it is. -/
theorem placed_html (ht : Slice.Tile a f.slices b) :
    f.Placed .html (·.node.slice) a n ancestors := by
  have hplace (node : Node) {c d : Nat} (hn : Slice.Tile c node.slices d) :
      node.slice = ⟨c, node.fresh .html⟩ ∧ (Slice.mk c (node.fresh .html)).stop = d := by
    have hfresh : node.fresh .html = node.slice.text := by
      rw [← Node.write_none .html node 0, Node.write_html]
    obtain ⟨hstart, hstop⟩ := Node.slice_of_tile hn
    rw [hfresh, ← hstart]
    exact ⟨rfl, hstop⟩
  induction f generalizing a b n ancestors with
  | nil => exact fun x hx => absurd hx List.not_mem_nil
  | text s rest ih =>
    obtain ⟨c, hn, hr⟩ := (Slice.tile_append (l := [s])).1 ht
    obtain ⟨hnode, rfl⟩ := hplace (.text s) hn
    exact placed_text.2 ⟨hnode, ih hr⟩
  | raw s rest ih =>
    obtain ⟨c, hn, hr⟩ := (Slice.tile_append (l := [s])).1 ht
    obtain ⟨hnode, rfl⟩ := hplace (.raw s) hn
    exact placed_raw.2 ⟨hnode, ih hr⟩
  | element tag opening children closing rest ihc ihr =>
    obtain ⟨c, hn, hr⟩ := Slice.tile_append.1 ht
    obtain ⟨d, ⟨rfl, -, hch⟩, -⟩ := (Slice.tile_append (l := opening :: children.slices)).1 hn
    obtain ⟨hnode, rfl⟩ := hplace (.element tag opening children closing) hn
    exact placed_element.2 ⟨hnode, ihc hch, ihr hr⟩

theorem edits_apart {replaced : Replacements} (ht : Slice.Tile a f.slices b) :
    Edit.Apart (f.edits replaced n ancestors) := editsAt_apart (placed_html ht)

end Forest

namespace Document

/-- The replaced nodes that are reached, each with what has taken its place. -/
def replaced (d : Document) : List (Position × Fragment) :=
  d.reachable.filterMap fun p => (d.replacement? p.id).map (p, ·)

theorem map_replaced (d : Document) (v : View) (place : Position → Slice) :
    d.replaced.map (fun (p, f) => v.edit (place p) f) =
      d.forest.editsAt v place d.replacement? 0 [] := by
  rw [replaced, Forest.editsAt, List.map_filterMap]
  apply List.filterMap_congr
  intro p _
  cases d.replacement? p.id <;> rfl

theorem map_edit_replaced (d : Document) :
    d.replaced.map (fun (p, f) => p.edit f) = d.forest.edits d.replacement? 0 [] :=
  d.map_replaced .html (·.node.slice)

/-- Of the replaced nodes those are reached that are below no other. -/
theorem map_fst_replaced (d : Document) :
    d.replaced.map (·.1) =
      d.nodes.filter fun p => p.id ∈ d.replacedIds && !p.isBelow d.replacedIds := by
  have hguard : (fun p : Position => ((d.replacement? p.id).map (p, ·)).map (·.1)) =
      Option.guard fun p => p.id ∈ d.replacedIds := by
    funext p
    rw [Option.guard, ← isSome_replacement?]
    cases d.replacement? p.id <;> rfl
  rw [replaced, List.map_filterMap, hguard, List.filterMap_eq_filter, reachable_eq_filter,
    List.filter_filter]

/-- **A document is written as its source with the fragment of each replaced node that is reached
in the place of that node.** -/
theorem html_eq_splice {d : Document} {b : Nat} (ht : Slice.Tile 0 d.forest.slices b) :
    d.html = splice 0 (Slice.join d.forest.slices) (d.replaced.map fun (p, f) => p.edit f) := by
  have h := @Forest.splice_editsAt .html 0 0 [] d.forest _ d.replacement? (Forest.placed_html ht) []
    [] (List.forall_mem_nil _)
  rw [Forest.fresh_html, List.append_nil, List.append_nil, splice, List.append_nil] at h
  rw [html, write_eq, map_edit_replaced]
  exact h.symm

theorem mem_nodes_of_reachable {d : Document} {p : Position} (h : p ∈ d.reachable) :
    p ∈ d.nodes := (Forest.walk_sublist _ _ _ _).subset h

theorem mem_nodes_of_select {d : Document} {s : Selector} {p : Position} (h : p ∈ d.select s) :
    p ∈ d.nodes := mem_nodes_of_reachable (List.mem_filter.1 h).1

end Document

end RichContent
