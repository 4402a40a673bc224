/-
Tables of nodes whose parents and children agree (`Arena.WellFormed`).

A node is only put under an element whose end tag has not come, and such an
element is around the node before (`Builder.WellFormed`). So what is inside a
node has the numbers from its own up to that of the first node behind it, and
with a stack the nodes are gone through in the order of their numbers. A
replacement takes away children and leaves the parents as they are, so that the
numbers of what is inside a node are still those.
-/
import Mathlib.Logic.Relation
import RichContent.Markup.Arena

namespace RichContent

namespace Arena

/-! ## Parents and children -/

/-- `c` is among the children of `p`. -/
def Child (a : Arena) (p c : NodeId) : Prop := ∃ x, a.cell? p = some x ∧ c ∈ x.children

/-- What the cell of `c` says of its parent. -/
def HasParent (a : Arena) (c : NodeId) (parent : Option NodeId) : Prop :=
  ∃ x, a.cell? c = some x ∧ x.parent = parent

/-- `p` is the parent of `c`. -/
def Parent (a : Arena) (c p : NodeId) : Prop := a.HasParent c (some p)

/-- `c` is at the top. -/
def IsTop (a : Arena) (c : NodeId) : Prop := a.HasParent c none

def IsElement (a : Arena) (id : NodeId) : Prop := ∃ x, a.cell? id = some x ∧ x.isElement = true

def IsFragment (a : Arena) (id : NodeId) : Prop :=
  ∃ x, a.cell? id = some x ∧ x.isFragment = true

/-- The parents of `c` lead to `p`. -/
def Inside (a : Arena) : (c p : NodeId) → Prop := Relation.ReflTransGen a.Parent

/-- Children lead from `p` to `c`. -/
def Reach (a : Arena) : (p c : NodeId) → Prop := Relation.ReflTransGen a.Child

/-- The node is reached from the top through these nodes, which are listed from the node upwards. -/
inductive Path (a : Arena) : (id : NodeId) → List NodeId → Prop
  | root {id : NodeId} : id ∈ a.roots → Path a id [id]
  | child {id p : NodeId} {l : List NodeId} : Path a p l → a.Child p id → Path a id (id :: l)

/-- The parents of the node, which is listed first, end with a node that has none. -/
inductive ParentsEnd (a : Arena) : (id : NodeId) → List NodeId → Prop
  | top {id : NodeId} : a.IsTop id → ParentsEnd a id [id]
  | inner {id p : NodeId} {l : List NodeId} :
    a.Parent id p → ParentsEnd a p l → ParentsEnd a id (id :: l)

/-- The children, the parents and the nodes at the top agree, and the nodes are numbered as they
begin. -/
structure WellFormed (a : Arena) : Prop where
  parent_of_child : ∀ p c, a.Child p c → a.Parent c p
  parent_lt : ∀ c p, a.Parent c p → p < c
  mem_roots : ∀ r, r ∈ a.roots ↔ a.IsTop r
  children_increase : ∀ p x, a.cell? p = some x → x.children.Pairwise (· < ·)
  roots_increase : a.roots.Pairwise (· < ·)
  /-- Text, raw markup and what has been replaced have no children. -/
  childless : ∀ p x, a.cell? p = some x → x.isElement = false → x.children = []
  /-- A node that is no child of its parent has lost it by a replacement. -/
  listed : ∀ c p, a.Parent c p → a.Child p c ∨ a.IsFragment p
  /-- A node comes right behind one that is inside its parent. -/
  nested : ∀ c p, a.Parent (c + 1) p → a.Inside c p

variable {a : Arena} {c p q id : NodeId}

theorem lt_next_of_cell? {x : Cell} (h : a.cell? id = some x) : id < a.next :=
  (List.getElem?_eq_some_iff.1 h).1

theorem exists_cell? (h : id < a.next) : ∃ x, a.cell? id = some x :=
  ⟨_, List.getElem?_eq_getElem h⟩

theorem HasParent.lt_next {parent : Option NodeId} (h : a.HasParent c parent) : c < a.next := by
  obtain ⟨x, hx, -⟩ := h
  exact lt_next_of_cell? hx

theorem HasParent.unique {parent parent' : Option NodeId} (h : a.HasParent c parent)
    (h' : a.HasParent c parent') : parent = parent' := by
  obtain ⟨x, hx, hp⟩ := h
  obtain ⟨y, hy, hq⟩ := h'
  rw [hx] at hy
  cases hy
  exact hp.symm.trans hq

theorem Parent.unique (h : a.Parent c p) (h' : a.Parent c q) : p = q :=
  Option.some.inj (HasParent.unique h h')

theorem IsTop.not_parent (h : a.IsTop c) : ¬a.Parent c p := by
  intro h'
  cases HasParent.unique h h'

theorem isTop_or_parent (h : c < a.next) : a.IsTop c ∨ ∃ p, a.Parent c p := by
  obtain ⟨x, hx⟩ := exists_cell? h
  cases hp : x.parent with
  | none => exact .inl ⟨x, hx, hp⟩
  | some p => exact .inr ⟨p, x, hx, hp⟩

/-! ## What the operations do to the cells -/

section

variable {kind : Cell.Kind} {parent : Option NodeId}

theorem cell?_update (f : Cell → Cell) : (a.update p f).cell? id =
    (a.cell? id).map fun x => if p = id then f x else x :=
  List.getElem?_modify ..

theorem exists_update {f : Cell → Cell} {P : Cell → Prop} (hf : ∀ x, P (f x) ↔ P x) :
    (∃ x, (a.update p f).cell? id = some x ∧ P x) ↔ ∃ x, a.cell? id = some x ∧ P x := by
  rw [cell?_update]
  cases a.cell? id with
  | none => simp
  | some x => by_cases hp : p = id <;> simp [hp, hf]

@[simp] theorem next_update (f : Cell → Cell) : (a.update p f).next = a.next :=
  List.length_modify ..

/-- The new cell is the last one, and its number is the last child of its parent. -/
theorem cell?_push (h : ∀ p ∈ parent, p < a.next) : (a.push kind parent).cell? id =
    if id = a.next then some ⟨kind, parent, []⟩
    else (a.cell? id).map fun x => if parent = some id then x.adopt a.next else x := by
  have hadded : (a.cells ++ [⟨kind, parent, []⟩])[id]? =
      if id = a.next then some ⟨kind, parent, []⟩ else a.cell? id := by
    simp only [List.getElem?_append, cell?, next]
    grind
  cases parent with
  | none =>
    rw [push, cell?, hadded]
    simp
  | some p =>
    have hp : p ≠ a.next := Nat.ne_of_lt (h p rfl)
    simp only [push, cell?_update, Option.some.injEq]
    rw [cell?, hadded]
    by_cases hid : id = a.next
    · simp [hid, hp]
    · simp only [hid, if_false]

@[simp] theorem next_push : (a.push kind parent).next = a.next + 1 := by
  cases parent <;> simp [push, next, update]

theorem roots_push :
    (a.push kind parent).roots = if parent = none then a.roots ++ [a.next] else a.roots := by
  cases parent <;> rfl

theorem cell?_next : a.cell? a.next = none := List.getElem?_eq_none (Nat.le_refl _)

variable (h : ∀ p ∈ parent, p < a.next)
include h

theorem hasParent_push {o : Option NodeId} : (a.push kind parent).HasParent c o ↔
    a.HasParent c o ∨ c = a.next ∧ parent = o := by
  simp only [HasParent, cell?_push h]
  by_cases hc : c = a.next
  · simp [hc, cell?_next]
  · cases a.cell? c with
    | none => simp [hc]
    | some x => by_cases hx : parent = some c <;> simp [hc, hx, Cell.adopt]

theorem inside_push (hin : a.Inside c p) : (a.push kind parent).Inside c p :=
  Relation.ReflTransGen.mono (fun _ _ hp => (hasParent_push h).2 (.inl hp)) _ _ hin

theorem child_push : (a.push kind parent).Child p c ↔
    a.Child p c ∨ c = a.next ∧ parent = some p := by
  simp only [Child, cell?_push h]
  by_cases hp : p = a.next
  · have hne : parent ≠ some a.next := fun hn => Nat.lt_irrefl _ (h _ hn)
    simp [hp, hne, cell?_next]
  · cases hcell : a.cell? p with
    | none =>
      have hne : parent ≠ some p := by
        intro hn
        obtain ⟨x, hx⟩ := exists_cell? (h p hn)
        rw [hcell] at hx
        cases hx
      simp [hp, hne]
    | some x => by_cases hx : parent = some p <;> simp [hp, hx, Cell.adopt]

/-- What does not depend on its children stays true of a cell. -/
theorem exists_push {P : Cell → Prop} (hadopt : ∀ x, P x → P (x.adopt a.next))
    (hp : ∃ x, a.cell? p = some x ∧ P x) : ∃ x, (a.push kind parent).cell? p = some x ∧ P x := by
  obtain ⟨x, hx, hP⟩ := hp
  rw [cell?_push h, if_neg (Nat.ne_of_lt (lt_next_of_cell? hx)), hx]
  refine ⟨_, rfl, ?_⟩
  split
  · exact hadopt x hP
  · exact hP

theorem isElement_push (hp : a.IsElement p) : (a.push kind parent).IsElement p :=
  exists_push h (fun _ hx => hx) hp

theorem isFragment_push (hp : a.IsFragment p) : (a.push kind parent).IsFragment p :=
  exists_push h (fun _ hx => hx) hp

end

/-! ## What the operations preserve -/

theorem wellFormed_empty (source : Text) : (empty source).WellFormed where
  parent_of_child p c h := by
    obtain ⟨x, ⟨⟩, -⟩ := h
  parent_lt c p h := by
    obtain ⟨x, ⟨⟩, -⟩ := h
  mem_roots r := by
    constructor
    · exact fun h => absurd h List.not_mem_nil
    · rintro ⟨x, ⟨⟩, -⟩
  children_increase id x h := by cases h
  roots_increase := .nil
  childless id x h := by cases h
  listed c p h := by
    obtain ⟨x, ⟨⟩, -⟩ := h
  nested c p h := by
    obtain ⟨x, ⟨⟩, -⟩ := h

namespace WellFormed

variable {kind : Cell.Kind} {parent : Option NodeId}

theorem increase_concat {l : List NodeId} {n : NodeId} (hl : l.Pairwise (· < ·))
    (h : ∀ m ∈ l, m < n) : (l ++ [n]).Pairwise (· < ·) := by
  refine List.pairwise_append.2 ⟨hl, List.pairwise_singleton _ _, fun m hm k hk => ?_⟩
  rw [List.mem_singleton.1 hk]
  exact h m hm

theorem child_lt_next (ha : a.WellFormed) (h : a.Child p c) : c < a.next :=
  (ha.parent_of_child p c h).lt_next

/-- A node may be put at the top, or under an element that is around the last node. -/
theorem push (ha : a.WellFormed) (kind : Cell.Kind)
    (hparent : ∀ p ∈ parent, a.IsElement p ∧ ∀ c, c + 1 = a.next → a.Inside c p) :
    (a.push kind parent).WellFormed := by
  have hlt : ∀ p ∈ parent, p < a.next := by
    intro p hp
    obtain ⟨⟨x, hx, -⟩, -⟩ := hparent p hp
    exact lt_next_of_cell? hx
  constructor
  case parent_of_child =>
    intro p c h
    rw [Parent, hasParent_push hlt]
    exact ((child_push hlt).1 h).imp (ha.parent_of_child p c) id
  case parent_lt =>
    intro c p h
    rcases (hasParent_push hlt).1 h with h | ⟨rfl, hp⟩
    · exact ha.parent_lt c p h
    · exact hlt p hp
  case mem_roots =>
    intro r
    rw [IsTop, hasParent_push hlt, roots_push, ← IsTop, ← ha.mem_roots]
    cases parent <;> simp
  case roots_increase =>
    rw [roots_push]
    split
    · exact increase_concat ha.roots_increase fun r hr => ((ha.mem_roots r).1 hr).lt_next
    · exact ha.roots_increase
  case children_increase =>
    intro p x hx
    rw [cell?_push hlt] at hx
    split at hx
    · cases hx
      exact .nil
    · obtain ⟨y, hy, rfl⟩ := Option.map_eq_some_iff.1 hx
      split
      · exact increase_concat (ha.children_increase p y hy) fun d hd =>
          ha.child_lt_next ⟨y, hy, hd⟩
      · exact ha.children_increase p y hy
  case childless =>
    intro p x hx hnone
    rw [cell?_push hlt] at hx
    split at hx
    · cases hx
      rfl
    · obtain ⟨y, hy, rfl⟩ := Option.map_eq_some_iff.1 hx
      split
      · rename_i hp
        -- the parent is an element, so it may have children
        obtain ⟨⟨z, hz, he⟩, -⟩ := hparent p hp
        rw [hy] at hz
        cases hz
        rw [if_pos hp] at hnone
        exact absurd (he.symm.trans hnone) (by decide)
      · rename_i hp
        rw [if_neg hp] at hnone
        exact ha.childless p y hy hnone
  case listed =>
    intro c p h
    rw [child_push hlt]
    rcases (hasParent_push hlt).1 h with h | hnew
    · exact (ha.listed c p h).imp .inl (isFragment_push hlt)
    · exact .inl (.inr hnew)
  case nested =>
    intro c p h
    rcases (hasParent_push hlt).1 h with h | ⟨hc, hp⟩
    · exact inside_push hlt (ha.nested c p h)
    · exact inside_push hlt ((hparent p hp).2 c hc)

end WellFormed

end Arena

/-- The second cell has the parent of the first one, and either what else it has or, as a fragment,
no children. -/
structure Cell.Follows (x y : Cell) : Prop where
  parent : y.parent = x.parent
  children : y.children = x.children ∧ y.isElement = x.isElement ∧ y.isFragment = x.isFragment ∨
    y.children = [] ∧ y.isFragment = true

namespace Cell

theorem Follows.refl (x : Cell) : x.Follows x := ⟨rfl, .inl ⟨rfl, rfl, rfl⟩⟩

theorem isElement_close (endTag : Slice) (x : Cell) :
    (x.close endTag).isElement = x.isElement := by
  obtain ⟨kind, parent, children⟩ := x
  cases kind <;> rfl

theorem isFragment_close (endTag : Slice) (x : Cell) :
    (x.close endTag).isFragment = x.isFragment := by
  obtain ⟨kind, parent, children⟩ := x
  cases kind <;> rfl

theorem follows_close (endTag : Slice) (x : Cell) : x.Follows (x.close endTag) := by
  refine ⟨?_, .inl ⟨?_, isElement_close endTag x, isFragment_close endTag x⟩⟩
  all_goals
    obtain ⟨kind, parent, children⟩ := x
    cases kind <;> rfl

theorem follows_replace (f : Fragment) (x : Cell) : x.Follows (x.replace f) := ⟨rfl, .inr ⟨rfl, rfl⟩⟩

end Cell

namespace Arena

variable {a : Arena} {c p q id : NodeId}

section

variable {f : Cell → Cell} (hf : ∀ x : Cell, x.Follows (f x))
include hf

theorem follows_of_update {y : Cell} (h : (a.update q f).cell? id = some y) :
    ∃ x, a.cell? id = some x ∧ x.Follows y := by
  rw [cell?_update] at h
  obtain ⟨x, hx, rfl⟩ := Option.map_eq_some_iff.1 h
  refine ⟨x, hx, ?_⟩
  split
  · exact hf x
  · exact .refl x

theorem exists_follows {x : Cell} (h : a.cell? id = some x) :
    ∃ y, (a.update q f).cell? id = some y ∧ x.Follows y := by
  rw [cell?_update, h]
  refine ⟨_, rfl, ?_⟩
  split
  · exact hf x
  · exact .refl x

theorem hasParent_update {parent : Option NodeId} :
    (a.update q f).HasParent c parent ↔ a.HasParent c parent :=
  exists_update fun x => by rw [(hf x).parent]

theorem inside_update : (a.update q f).Inside c p ↔ a.Inside c p := by
  have hparent : (a.update q f).Parent = a.Parent :=
    funext fun _ => funext fun _ => propext (hasParent_update hf)
  rw [Inside, Inside, hparent]

/-- What else is done to the cells leaves them as they are, or takes away children. -/
theorem WellFormed.update (ha : a.WellFormed) (q : NodeId) : (a.update q f).WellFormed where
  parent_of_child p c h := by
    obtain ⟨y, hy, hc⟩ := h
    obtain ⟨x, hx, hxy⟩ := follows_of_update hf hy
    refine (hasParent_update hf).2 (ha.parent_of_child p c ⟨x, hx, ?_⟩)
    rcases hxy.children with ⟨hsame, -⟩ | ⟨hnil, -⟩
    · exact hsame ▸ hc
    · rw [hnil] at hc
      exact absurd hc List.not_mem_nil
  parent_lt c p h := ha.parent_lt c p ((hasParent_update hf).1 h)
  mem_roots r := (ha.mem_roots r).trans (hasParent_update hf).symm
  roots_increase := ha.roots_increase
  children_increase p y hy := by
    obtain ⟨x, hx, hxy⟩ := follows_of_update hf hy
    rcases hxy.children with ⟨hsame, -⟩ | ⟨hnil, -⟩
    · exact hsame ▸ ha.children_increase p x hx
    · exact hnil ▸ .nil
  childless p y hy hnone := by
    obtain ⟨x, hx, hxy⟩ := follows_of_update hf hy
    rcases hxy.children with ⟨hsame, helement, -⟩ | ⟨hnil, -⟩
    · exact hsame.trans (ha.childless p x hx (helement.symm.trans hnone))
    · exact hnil
  listed c p h := by
    rcases ha.listed c p ((hasParent_update hf).1 h) with ⟨x, hx, hc⟩ | ⟨x, hx, hfrag⟩
    · obtain ⟨y, hy, hxy⟩ := exists_follows (q := q) hf hx
      rcases hxy.children with ⟨hsame, -⟩ | ⟨-, hfrag⟩
      · exact .inl ⟨y, hy, hsame ▸ hc⟩
      · exact .inr ⟨y, hy, hfrag⟩
    · obtain ⟨y, hy, hxy⟩ := exists_follows (q := q) hf hx
      rcases hxy.children with ⟨-, -, hsame⟩ | ⟨-, hfrag'⟩
      · exact .inr ⟨y, hy, hsame.trans hfrag⟩
      · exact .inr ⟨y, hy, hfrag'⟩
  nested c p h := (inside_update hf).2 (ha.nested c p ((hasParent_update hf).1 h))

end

theorem isElement_close {s : Slice} : (a.close id s).IsElement p ↔ a.IsElement p :=
  exists_update fun x => by rw [x.isElement_close s]

theorem isFragment_close {s : Slice} : (a.close id s).IsFragment p ↔ a.IsFragment p :=
  exists_update fun x => by rw [x.isFragment_close s]

namespace WellFormed

theorem close (ha : a.WellFormed) (id : NodeId) (endTag : Slice) : (a.close id endTag).WellFormed :=
  ha.update (Cell.follows_close endTag) id

theorem replace (ha : a.WellFormed) (id : NodeId) (f : Fragment) : (a.replace id f).WellFormed :=
  ha.update (Cell.follows_replace f) id

/-- **Replacements leave a table well-formed.** -/
theorem replaceAll (ha : a.WellFormed) (rs : List (NodeId × Fragment)) :
    (a.replaceAll rs).WellFormed := by
  induction rs generalizing a with
  | nil => exact ha
  | cons r rs ih => exact ih (ha.replace r.1 r.2)

end WellFormed

/-! ## Parsing -/

namespace Builder

/-- The open elements are in one another, and the last node is in all of them. -/
structure WellFormed (b : Builder) : Prop where
  arena : b.arena.WellFormed
  elements : ∀ id ∈ b.opened, b.arena.IsElement id
  nested : b.opened.Pairwise b.arena.Inside
  last : ∀ id ∈ b.opened, ∀ c, c + 1 = b.arena.next → b.arena.Inside c id
  no_fragment : ∀ id, ¬b.arena.IsFragment id

variable {b : Builder}

namespace WellFormed

theorem opened_lt (hb : b.WellFormed) : ∀ p ∈ b.opened.head?, p < b.arena.next := by
  intro p hp
  obtain ⟨x, hx, -⟩ := hb.elements p (List.mem_of_mem_head? hp)
  exact lt_next_of_cell? hx

/-- A node that is added is in the elements that are open. -/
theorem inside_add (hb : b.WellFormed) (kind : Cell.Kind) (h : id ∈ b.opened) :
    (b.add kind).arena.Inside b.arena.next id := by
  cases hopened : b.opened with
  | nil =>
    rw [hopened] at h
    exact absurd h List.not_mem_nil
  | cons p rest =>
    have hnested := hb.nested
    have hlt := hb.opened_lt
    rw [hopened] at h hnested hlt
    simp only [add, hopened]
    refine .head ((hasParent_push hlt).2 (.inr ⟨rfl, rfl⟩)) (inside_push hlt ?_)
    rcases List.mem_cons.1 h with rfl | h
    · exact .refl
    · exact (List.pairwise_cons.1 hnested).1 id h

theorem add (hb : b.WellFormed) {kind : Cell.Kind} (hkind : ∀ f, kind ≠ .fragment f) :
    (b.add kind).WellFormed where
  arena := hb.arena.push kind fun p hp =>
    have hp := List.mem_of_mem_head? hp
    ⟨hb.elements p hp, hb.last p hp⟩
  elements id h := isElement_push hb.opened_lt (hb.elements id h)
  nested := hb.nested.imp (inside_push hb.opened_lt)
  last id h c hc := by
    obtain rfl := Nat.succ.inj (hc.trans next_push)
    exact hb.inside_add kind h
  no_fragment id h := by
    obtain ⟨x, hx, hf⟩ := h
    rw [Builder.add, cell?_push hb.opened_lt] at hx
    split at hx
    · cases hx
      cases kind with
      | fragment f => exact hkind f rfl
      | _ => cases hf
    · obtain ⟨y, hy, rfl⟩ := Option.map_eq_some_iff.1 hx
      refine hb.no_fragment id ⟨y, hy, ?_⟩
      split at hf
      · exact hf
      · exact hf

/-- An element that is added may be opened. -/
theorem opening (hb : b.WellFormed) (tag : StartTag) (s : Slice) :
    WellFormed ⟨(b.add (.element tag s none)).arena, b.arena.next :: b.opened⟩ := by
  have hadd : (b.add (.element tag s none)).WellFormed := hb.add fun _ => Cell.Kind.noConfusion
  exact {
    arena := hadd.arena
    elements := by
      refine List.forall_mem_cons.2 ⟨?_, hadd.elements⟩
      rw [IsElement, Builder.add, cell?_push hb.opened_lt, if_pos rfl]
      exact ⟨_, rfl, rfl⟩
    nested := List.pairwise_cons.2 ⟨fun id h => hb.inside_add _ h, hadd.nested⟩
    last := by
      refine List.forall_mem_cons.2 ⟨fun c hc => ?_, hadd.last⟩
      obtain rfl := Nat.succ.inj (hc.trans next_push)
      exact .refl
    no_fragment := hadd.no_fragment }

/-- Elements may be closed. -/
theorem closing (hb : b.WellFormed) (id : NodeId) (s : Slice) {opened : List NodeId}
    (h : opened.Sublist b.opened) : WellFormed ⟨b.arena.close id s, opened⟩ where
  arena := hb.arena.close id s
  elements p hp := isElement_close.2 (hb.elements p (h.subset hp))
  nested := (hb.nested.sublist h).imp (inside_update (Cell.follows_close s)).2
  last p hp c hc := by
    have hc : c + 1 = b.arena.next := hc.trans (next_update _)
    exact (inside_update (Cell.follows_close s)).2 (hb.last p (h.subset hp) c hc)
  no_fragment p hp := hb.no_fragment p (isFragment_close.1 hp)

theorem sublist (hb : b.WellFormed) {opened : List NodeId} (h : opened.Sublist b.opened) :
    WellFormed ⟨b.arena, opened⟩ where
  arena := hb.arena
  elements p hp := hb.elements p (h.subset hp)
  nested := hb.nested.sublist h
  last p hp := hb.last p (h.subset hp)
  no_fragment := hb.no_fragment

end WellFormed

/-- **Every piece leaves the table well-formed**, and what is open in it. -/
theorem WellFormed.step (hb : b.WellFormed) (piece : Piece) : (b.step piece).WellFormed := by
  cases piece with
  | text s | raw s => exact hb.add fun _ => Cell.Kind.noConfusion
  | leaf tag s => exact hb.add fun _ => Cell.Kind.noConfusion
  | opening tag s => exact hb.opening tag s
  | verbatim tag s content closing =>
    have hopened := hb.opening tag s
    have hcontent : WellFormed ⟨if content.text = [] then (b.add (.element tag s none)).arena
        else (b.add (.element tag s none)).arena.push (.text content) (some b.arena.next),
        b.arena.next :: b.opened⟩ := by
      split
      · exact hopened
      · exact hopened.add fun _ => Cell.Kind.noConfusion
    cases closing with
    | none => exact hcontent.sublist (List.sublist_cons_self _ _)
    | some endTag => exact hcontent.closing _ endTag (List.sublist_cons_self _ _)
  | closing name s =>
    rw [Builder.step]
    have hsuffix := List.dropWhile_suffix (fun id => b.arena.name? id != some name) (l := b.opened)
    split
    · rename_i id rest hdrop
      rw [hdrop] at hsuffix
      exact hb.closing id s ((List.sublist_cons_self id rest).trans hsuffix.sublist)
    · exact hb.add fun _ => Cell.Kind.noConfusion

theorem WellFormed.foldl (hb : b.WellFormed) (pieces : List Piece) :
    (pieces.foldl Builder.step b).WellFormed := by
  induction pieces generalizing b with
  | nil => exact hb
  | cons piece pieces ih => exact ih (hb.step piece)

theorem wellFormed_empty (source : Text) : WellFormed ⟨empty source, []⟩ where
  arena := Arena.wellFormed_empty source
  elements _ h := absurd h List.not_mem_nil
  nested := .nil
  last _ h := absurd h List.not_mem_nil
  no_fragment id h := by
    obtain ⟨x, ⟨⟩, -⟩ := h

end Builder

/-- **The table of every source is well-formed**, and there is no fragment in it. -/
theorem wellFormed_parse (source : Text) :
    (parse source).WellFormed ∧ ∀ id, ¬(parse source).IsFragment id :=
  have h := (Builder.wellFormed_empty source).foldl (Piece.all 0 source)
  ⟨h.arena, h.no_fragment⟩

end Arena

end RichContent
