/-
Where the nodes of a forest stand.

In document order the nodes are numbered in a row (`positions_id`), so a number
finds its node again (`node?_of_mem`). Each node is a stretch of the slices of
the forest (`slices_infix`), and of two nodes the later one begins later and
lies inside the earlier one or behind it (`positions_pairwise`).
-/
import RichContent.Markup.Document
import RichContent.Proofs.Markup.Tiling

namespace RichContent

open Text

/-- The second slice begins after the first and lies inside it or behind it. -/
def Slice.Precedes (s t : Slice) : Prop :=
  s.start < t.start ∧ (t.stop ≤ s.stop ∨ s.stop ≤ t.start)

namespace Forest

/-- Every node of a forest, in document order. -/
def positions (n : NodeId) (ancestors : List (NodeId × StartTag)) (f : Forest) : List Position :=
  f.walk (fun _ => false) n ancestors

/-- The nodes at the top of a forest where they stand. -/
def topPositions (n : NodeId) (ancestors : List (NodeId × StartTag)) : Forest → List Position
  | nil => []
  | text s rest => ⟨n, ancestors, .text s⟩ :: rest.topPositions (n + 1) ancestors
  | raw s rest => ⟨n, ancestors, .raw s⟩ :: rest.topPositions (n + 1) ancestors
  | element tag opening children closing rest =>
    ⟨n, ancestors, .element tag opening children closing⟩ ::
      rest.topPositions (n + 1 + children.size) ancestors

section

variable (n : NodeId) (ancestors : List (NodeId × StartTag))

@[simp] theorem positions_nil : nil.positions n ancestors = [] := rfl

@[simp] theorem positions_text (s : Slice) (rest : Forest) :
    (text s rest).positions n ancestors =
      ⟨n, ancestors, .text s⟩ :: rest.positions (n + 1) ancestors := rfl

@[simp] theorem positions_raw (s : Slice) (rest : Forest) :
    (raw s rest).positions n ancestors =
      ⟨n, ancestors, .raw s⟩ :: rest.positions (n + 1) ancestors := rfl

@[simp] theorem positions_element (tag : StartTag) (opening : Slice) (children : Forest)
    (closing : Option Slice) (rest : Forest) :
    (element tag opening children closing rest).positions n ancestors =
      ⟨n, ancestors, .element tag opening children closing⟩ ::
        (children.positions (n + 1) ((n, tag) :: ancestors)
          ++ rest.positions (n + 1 + children.size) ancestors) := rfl

end

variable {f : Forest} {n : NodeId} {ancestors : List (NodeId × StartTag)} {p : Position}

/-! ## Numbers -/

/-- The nodes are numbered in a row. -/
theorem positions_id (f : Forest) (n : NodeId) (ancestors : List (NodeId × StartTag)) :
    (f.positions n ancestors).map (·.id) = List.range' n f.size := by
  induction f generalizing n ancestors with
  | nil => rfl
  | text s rest ih => simp [size, ih, Nat.add_comm 1, List.range'_succ]
  | raw s rest ih => simp [size, ih, Nat.add_comm 1, List.range'_succ]
  | element tag opening children closing rest ihc ihr =>
    have hsize : 1 + children.size + rest.size = (children.size + rest.size) + 1 := by omega
    simp [size, ihc, ihr, hsize, List.range'_succ, List.range'_append_1]

theorem positions_nodup (f : Forest) (n : NodeId) (ancestors : List (NodeId × StartTag)) :
    ((f.positions n ancestors).map (·.id)).Nodup := by
  rw [positions_id]
  exact List.nodup_range'

/-! ## Children -/

theorem topPositions_id (f : Forest) (n : NodeId) (ancestors : List (NodeId × StartTag)) :
    (f.topPositions n ancestors).map (·.id) = f.siblings n := by
  induction f generalizing n with
  | nil => rfl
  | text s rest ih => simp [topPositions, siblings, ih]
  | raw s rest ih => simp [topPositions, siblings, ih]
  | element tag opening children closing rest _ ih => simp [topPositions, siblings, ih]

theorem topPositions_node (f : Forest) (n : NodeId) (ancestors : List (NodeId × StartTag)) :
    (f.topPositions n ancestors).map (·.node) = f.top := by
  induction f generalizing n with
  | nil => rfl
  | text s rest ih => simp [topPositions, top, ih]
  | raw s rest ih => simp [topPositions, top, ih]
  | element tag opening children closing rest _ ih => simp [topPositions, top, ih]

/-- The nodes at the top of a forest are among its nodes. -/
theorem mem_positions_of_top (h : p ∈ f.topPositions n ancestors) :
    p ∈ f.positions n ancestors := by
  induction f generalizing n with
  | nil => exact h
  | text s rest ih =>
    rcases List.mem_cons.1 h with rfl | h
    · exact List.mem_cons_self
    · exact List.mem_cons_of_mem _ (ih h)
  | raw s rest ih =>
    rcases List.mem_cons.1 h with rfl | h
    · exact List.mem_cons_self
    · exact List.mem_cons_of_mem _ (ih h)
  | element tag opening children closing rest _ ih =>
    rcases List.mem_cons.1 h with rfl | h
    · exact List.mem_cons_self
    · exact List.mem_cons_of_mem _ (List.mem_append_right _ (ih h))

/-- What is below a node of a forest is among the nodes of the forest. -/
theorem mem_positions_of_child {tag : StartTag} {opening : Slice} {children : Forest}
    {closing : Option Slice} (hp : p ∈ f.positions n ancestors)
    (hnode : p.node = .element tag opening children closing) {q : Position}
    (hq : q ∈ children.positions (p.id + 1) ((p.id, tag) :: p.ancestors)) :
    q ∈ f.positions n ancestors := by
  induction f generalizing n ancestors with
  | nil => exact absurd hp List.not_mem_nil
  | text s rest ih =>
    rcases List.mem_cons.1 hp with rfl | hp
    · cases hnode
    · exact List.mem_cons_of_mem _ (ih hp)
  | raw s rest ih =>
    rcases List.mem_cons.1 hp with rfl | hp
    · cases hnode
    · exact List.mem_cons_of_mem _ (ih hp)
  | element tag' opening' children' closing' rest ihc ihr =>
    rw [positions_element] at hp ⊢
    rcases List.mem_cons.1 hp with rfl | hp
    · cases hnode
      exact List.mem_cons_of_mem _ (List.mem_append_left _ hq)
    · rcases List.mem_append.1 hp with hp | hp
      · exact List.mem_cons_of_mem _ (List.mem_append_left _ (ihc hp))
      · exact List.mem_cons_of_mem _ (List.mem_append_right _ (ihr hp))

/-! ## Places in the source -/

/-- The slices of a node are a run of the slices of the forest. -/
theorem slices_infix (h : p ∈ f.positions n ancestors) : p.node.slices <:+: f.slices := by
  induction f generalizing n ancestors with
  | nil => exact absurd h List.not_mem_nil
  | text s rest ih =>
    rcases List.mem_cons.1 h with rfl | h
    · exact ⟨[], rest.slices, rfl⟩
    · exact (ih h).trans (List.suffix_cons s rest.slices).isInfix
  | raw s rest ih =>
    rcases List.mem_cons.1 h with rfl | h
    · exact ⟨[], rest.slices, rfl⟩
    · exact (ih h).trans (List.suffix_cons s rest.slices).isInfix
  | element tag opening children closing rest ihc ihr =>
    rw [positions_element] at h
    rcases List.mem_cons.1 h with rfl | h
    · exact ⟨[], rest.slices, rfl⟩
    · rcases List.mem_append.1 h with h | h
      · exact (ihc h).trans ⟨[opening], closing.toList ++ rest.slices, by simp [slices]⟩
      · exact (ihr h).trans
          ⟨opening :: children.slices ++ closing.toList, [], by simp [slices]⟩

/-- The nodes of a forest lie between its first byte and its last, and none is empty. -/
theorem positions_within {a b : Nat} (ht : Slice.Tile a f.slices b)
    (h : p ∈ f.positions n ancestors) :
    a ≤ p.node.slice.start ∧ p.node.slice.start < p.node.slice.stop ∧
      p.node.slice.stop ≤ b := by
  obtain ⟨l, r, hs⟩ := slices_infix h
  rw [← hs] at ht
  obtain ⟨d, hd, hr⟩ := Slice.tile_append.1 ht
  obtain ⟨c, hl, hm⟩ := Slice.tile_append.1 hd
  obtain ⟨hstart, hstop⟩ := Node.slice_of_tile hm
  have hpos := utf8Size_pos (Node.join_slices_ne_nil hm)
  have hlt := hm.stop_eq
  have hle := hl.le
  have hge := hr.le
  omega

/-- The nodes of a forest that begins where a node ends are behind that node. -/
theorem precedes_of_tile {m : Node} {a b c : Nat} (hm : Slice.Tile a m.slices b)
    (hf : Slice.Tile b f.slices c) (h : p ∈ f.positions n ancestors) :
    m.slice.Precedes p.node.slice := by
  obtain ⟨hstart, hstop⟩ := Node.slice_of_tile hm
  obtain ⟨hp, -, -⟩ := positions_within hf h
  have hpos := utf8Size_pos (Node.join_slices_ne_nil hm)
  have hb := hm.stop_eq
  exact ⟨by omega, .inr (by omega)⟩

/-- Of two nodes the later one begins later, inside the earlier one or behind it. -/
theorem positions_pairwise {a b : Nat} (ht : Slice.Tile a f.slices b) :
    (f.positions n ancestors).Pairwise fun p q => p.node.slice.Precedes q.node.slice := by
  induction f generalizing n ancestors a b with
  | nil => exact List.Pairwise.nil
  | text s rest ih =>
    obtain ⟨c, hs, hr⟩ := (Slice.tile_append (l := [s])).1 ht
    exact List.pairwise_cons.2 ⟨fun q hq => precedes_of_tile (m := .text s) hs hr hq, ih hr⟩
  | raw s rest ih =>
    obtain ⟨c, hs, hr⟩ := (Slice.tile_append (l := [s])).1 ht
    exact List.pairwise_cons.2 ⟨fun q hq => precedes_of_tile (m := .raw s) hs hr hq, ih hr⟩
  | element tag opening children closing rest ihc ihr =>
    obtain ⟨c, hn, hr⟩ := Slice.tile_append.1 ht
    obtain ⟨d, ⟨ho, hne, hch⟩, hcl⟩ :=
      (Slice.tile_append (l := opening :: children.slices)).1 hn
    have hnode : Slice.Tile a (Node.element tag opening children closing).slices c := hn
    obtain ⟨hstart, hstop⟩ := Node.slice_of_tile hnode
    have hopen := utf8Size_pos hne
    have hle := hcl.le
    rw [positions_element]
    refine List.pairwise_cons.2 ⟨fun q hq => ?_, List.pairwise_append.2 ⟨ihc hch, ihr hr, ?_⟩⟩
    · rcases List.mem_append.1 hq with hq | hq
      -- below the element: after its start tag and before its end
      · obtain ⟨hq1, -, hq2⟩ := positions_within hch hq
        simp only [Slice.stop] at hq1
        exact ⟨by simp only; omega, .inl (by simp only; omega)⟩
      · exact precedes_of_tile hnode hr hq
    · intro p hp q hq
      obtain ⟨-, hp1, hp2⟩ := positions_within hch hp
      obtain ⟨hq, -, -⟩ := positions_within hr hq
      exact ⟨by omega, .inr (by omega)⟩

end Forest

end RichContent
