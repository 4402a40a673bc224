/-
The pieces that a forest has been grown from.

A node is one piece (`Piece.Whole`), or a start tag, the pieces of what is in
it, and an end tag if it has one; `Forest.Grown` says no more, so that nothing
about open elements is left in it. The start tags of the pieces are those of
the nodes, in order, and an element that cannot have content has none.
-/
import RichContent.Proofs.Markup.Lexing
import RichContent.Proofs.Markup.Positions
import RichContent.Proofs.Markup.Reread

namespace RichContent

open Text

/-! ## Nodes -/

namespace Node

/-- The start tag of a node. -/
def tag? : Node → Option StartTag
  | element tag _ _ _ => some tag
  | _ => none

theorem tag?_eq_some {m : Node} {tag : StartTag} : m.tag? = some tag ↔
    ∃ opening children closing, m = .element tag opening children closing := by
  cases m <;> simp [tag?]

/-- Where a node begins that is an element, or was broken off as a start tag. -/
def attempt? : Node → Option Nat
  | text s => s.brokenTag?
  | raw _ => none
  | element _ opening _ _ => some opening.start

/-- A node in front of a forest. -/
def onto : Node → Forest → Forest
  | text s, rest => .text s rest
  | raw s, rest => .raw s rest
  | element tag opening children closing, rest => .element tag opening children closing rest

/-- The number of nodes of a node and below it. -/
def size (m : Node) : Nat := 1 + m.children.size

/-- The nodes below a node that has number `n`. -/
def below (closed : NodeId → Bool) (n : NodeId) (ancestors : List (NodeId × StartTag)) :
    Node → List Position
  | element tag _ children _ => children.walk closed (n + 1) ((n, tag) :: ancestors)
  | _ => []

variable (m : Node) (rest : Forest)

theorem write_onto (v : View) (replaced : Replacements) (n : NodeId) :
    (m.onto rest).write v replaced n =
      m.write v replaced n ++ rest.write v replaced (n + m.size) := by
  cases m with
  | text s | raw s => rfl
  | element tag opening children closing =>
    rw [write_element, onto, Forest.write, size, Node.children, Nat.add_assoc]

theorem walk_onto (closed : NodeId → Bool) (n : NodeId) (ancestors : List (NodeId × StartTag)) :
    (m.onto rest).walk closed n ancestors =
      ⟨n, ancestors, m⟩ :: ((if closed n then [] else m.below closed n ancestors)
        ++ rest.walk closed (n + m.size) ancestors) := by
  cases m with
  | text s | raw s => simp [onto, Forest.walk, size, below, children, Forest.size]
  | element tag opening children closing =>
    rw [onto, Forest.walk, size, below, Node.children, Nat.add_assoc]

end Node

/-- The piece is all of the node. -/
inductive Piece.Whole : Piece → Node → Prop
  | text {s : Slice} : Whole (.text s) (.text s)
  | raw {s : Slice} : Whole (.raw s) (.raw s)
  /-- An end tag that closes nothing. -/
  | stray {name : Text} {s : Slice} : Whole (.closing name s) (.raw s)
  | leaf {tag : StartTag} {s : Slice} : Whole (.leaf tag s) (.element tag s .nil none)
  | verbatim {tag : StartTag} {s content : Slice} {closing : Option Slice} :
    Whole (.verbatim tag s content closing) (.element tag s (.verbatim content) closing)

namespace Piece.Whole

variable {p : Piece} {m : Node}

theorem slices_eq (h : p.Whole m) : p.slices = m.slices := by
  cases h <;> rfl

theorem tag?_eq (h : p.Whole m) : p.tag? = m.tag? := by
  cases h <;> rfl

theorem attempt?_eq (h : p.Whole m) : p.attempt? = m.attempt? := by
  cases h <;> rfl

/-- There is no element in it. -/
theorem tag?_of_below (h : p.Whole m) {closed : NodeId → Bool} {n : NodeId}
    {ancestors : List (NodeId × StartTag)} {q : Position} (hq : q ∈ m.below closed n ancestors) :
    q.node.tag? = none := by
  cases h with
  | text | raw | stray | leaf => exact absurd hq List.not_mem_nil
  | @verbatim tag s content closing =>
    rw [Node.below, Forest.verbatim] at hq
    split at hq
    · exact absurd hq List.not_mem_nil
    · rw [List.mem_singleton.1 hq]
      rfl

end Piece.Whole

/-! ## Elements that cannot have content -/

theorem StartTag.lower_parse (t : Text) : lower (parse t).name = (parse t).name := by
  simp only [parse, lower, List.map_map]
  apply List.map_congr_left
  intro c _
  exact toLower_toLower c

/-- A start tag has been read from its text. -/
theorem Lexeme.parse_of_startTag {c : Char} {rest : Text} {tag : StartTag}
    (h : (next c rest).kind = .startTag tag) : StartTag.parse (next c rest).text = tag := by
  have hshape := shape_next c rest
  rw [h] at hshape
  obtain ⟨letter, body, -, -, htag⟩ := hshape
  exact htag.symm

/-- The names of start tags are in small letters. -/
theorem Lexeme.lower_of_startTag {c : Char} {rest : Text} {tag : StartTag}
    (h : (next c rest).kind = .startTag tag) : lower tag.name = tag.name := by
  rw [← parse_of_startTag h]
  exact StartTag.lower_parse _

namespace Piece

/-- What holds of every piece that is a lexeme, and of every element that is taken as it stands,
holds of all pieces of a source that ends at byte `stop`. -/
theorem forall_mem_all {P : Piece → Prop} {stop : Nat}
    (hstep : ∀ start c rest, verbatimTag? (Lexeme.next c rest) = none →
      P (ofStep start (Lexeme.next c rest)))
    (hverbatim : ∀ start c rest tag, verbatimTag? (Lexeme.next c rest) = some tag →
      start + Text.utf8Size (c :: rest) = stop →
      P (ofVerbatim tag ⟨start, (Lexeme.next c rest).text⟩
        (cutVerbatim tag.name (Lexeme.next c rest).after)))
    (start : Nat) (t : Text) (hstop : start + t.utf8Size = stop) : ∀ p ∈ all start t, P p := by
  induction hn : t.length using Nat.strongRecOn generalizing start t with
  | ind n ih =>
    cases t with
    | nil => rw [all_nil]; exact fun p hp => absurd hp List.not_mem_nil
    | cons c rest =>
      obtain ⟨p, after, behind, hall, hlen, htile, happ⟩ := all_cons start c rest
      have hbehind : behind + after.utf8Size = stop := by
        rw [← hstop, ← happ, utf8Size_append, htile.stop_eq, Nat.add_assoc]
      rw [hall]
      refine List.forall_mem_cons.2
        ⟨?_, ih after.length (by simp at hn; omega) behind after hbehind rfl⟩
      cases htag : verbatimTag? (Lexeme.next c rest) with
      | none =>
        rw [all_ofStep htag] at hall
        obtain ⟨rfl, -⟩ := List.cons.inj hall
        exact hstep start c rest htag
      | some tag =>
        rw [all_ofVerbatim htag] at hall
        obtain ⟨rfl, -⟩ := List.cons.inj hall
        exact hverbatim start c rest tag htag hstop

theorem kind_of_ofStep {start : Nat} {s : Lexeme.Step} {tag : StartTag}
    (h : (ofStep start s).tag? = some tag) : s.kind = .startTag tag := by
  rw [ofStep] at h
  split at h
  all_goals try cases h
  rename_i tag' hkind
  split at h <;> cases h <;> exact hkind

/-- The tag that a piece is or begins with has been read from its text. -/
def Read : Piece → Prop
  | leaf tag s | verbatim tag s _ _ | opening tag s => StartTag.parse s.text = tag
  | _ => True

theorem read_of_all (start : Nat) (t : Text) : ∀ p ∈ all start t, p.Read := by
  refine forall_mem_all (fun start c rest _ => ?_) (fun _ c rest tag hverbatim _ => ?_) start t rfl
  · rw [ofStep]
    split
    all_goals try exact trivial
    rename_i tag hkind
    split <;> exact Lexeme.parse_of_startTag hkind
  · exact Lexeme.parse_of_startTag (verbatimTag?_eq_some.1 hverbatim).1

/-- A tag of an element that cannot have content opens no element. -/
def Lexed (p : Piece) : Prop :=
  ∀ tag, p.tag? = some tag → lower tag.name ∈ voidElements → ∃ s, p = .leaf tag s

theorem lexed_of_all (start : Nat) (t : Text) : ∀ p ∈ all start t, p.Lexed := by
  refine forall_mem_all (fun start c rest _ tag htag hvoid => ?_)
    (fun _ c rest tag hverbatim _ tag' htag hvoid => ?_) start t rfl
  · have hkind := kind_of_ofStep htag
    rw [Lexeme.lower_of_startTag hkind] at hvoid
    rw [ofStep, hkind]
    exact ⟨_, if_pos (isLeaf_iff.2 (.inl hvoid))⟩
  · cases htag
    have hnames : ∀ name ∈ verbatimElements, lower name ∉ voidElements := by decide
    exact absurd hvoid (hnames _ (verbatimTag?_eq_some.1 hverbatim).2.2)

end Piece

/-- The tag of a node that is an element has been read from its text. -/
def Node.Read : Node → Prop
  | element tag s _ _ => StartTag.parse s.text = tag
  | _ => True

theorem Node.read_of_tag?_eq_none {m : Node} (h : m.tag? = none) : m.Read := by
  cases m with
  | text | raw => exact trivial
  | element => cases h

theorem Piece.Whole.read {p : Piece} {m : Node} (h : p.Whole m) (hp : p.Read) : m.Read := by
  cases h with
  | text | raw | stray => exact trivial
  | leaf | verbatim => exact hp

/-- The end tag of an element, if there is one. -/
def Piece.closers (tag : StartTag) (closing : Option Slice) : List Piece :=
  closing.toList.map (Piece.closing tag.name)

/-- A forest and the pieces that it has been grown from. -/
inductive Forest.Grown : Forest → List Piece → Prop
  | nil : Grown .nil []
  | whole {p : Piece} {m : Node} {rest : Forest} {ps : List Piece} :
    p.Whole m → Grown rest ps → Grown (m.onto rest) (p :: ps)
  | element {tag : StartTag} {s : Slice} {children rest : Forest} {closing : Option Slice}
    {cs ps : List Piece} : Grown children cs → Grown rest ps →
    Grown (.element tag s children closing rest)
      (.opening tag s :: cs ++ Piece.closers tag closing ++ ps)

/-- The pieces that are left when a run of siblings has come to its end. -/
def Ending.pieces : Ending → List Piece
  | source => []
  | endTag name s rest => .closing name s :: rest

theorem Forest.grown_grow (opened : List Text) (pieces : List Piece) :
    ∃ ps, Grown (grow opened pieces).forest ps ∧
      pieces = ps ++ (grow opened pieces).ending.pieces := by
  fun_induction grow opened pieces with
  | case1 => exact ⟨[], .nil, rfl⟩
  | case2 opened s rest ih =>
    obtain ⟨ps, hgrown, hps⟩ := ih
    exact ⟨_, .whole .text hgrown, congrArg _ hps⟩
  | case3 opened s rest ih =>
    obtain ⟨ps, hgrown, hps⟩ := ih
    exact ⟨_, .whole .raw hgrown, congrArg _ hps⟩
  | case4 opened tag s rest ih =>
    obtain ⟨ps, hgrown, hps⟩ := ih
    exact ⟨_, .whole .leaf hgrown, congrArg _ hps⟩
  | case5 opened tag s content close rest ih =>
    obtain ⟨ps, hgrown, hps⟩ := ih
    exact ⟨_, .whole .verbatim hgrown, congrArg _ hps⟩
  | case6 opened name s rest _ => exact ⟨[], .nil, rfl⟩
  | case7 opened name s rest _ ih =>
    obtain ⟨ps, hgrown, hps⟩ := ih
    exact ⟨_, .whole .stray hgrown, congrArg _ hps⟩
  | case8 opened tag s rest children bound hc ih =>
    obtain ⟨cs, hgrown, hcs⟩ := ih
    rw [hc] at hgrown hcs
    exact ⟨_, .element hgrown .nil, by simp [hcs, Ending.pieces, Piece.closers]⟩
  | case9 opened tag s rest children close after g bound hc ihc ihr =>
    obtain ⟨cs, hgrown, hcs⟩ := ihc
    obtain ⟨ps, hrest, hps⟩ := ihr
    rw [hc] at hgrown hcs
    have hall : rest =
        cs ++ .closing tag.name close :: (ps ++ (grow opened after).ending.pieces) := by
      rw [← hps]
      exact hcs
    refine ⟨_, .element hgrown hrest, (congrArg (.opening tag s :: ·) hall).trans ?_⟩
    simp [Piece.closers, g]
  | case10 opened tag s rest children name close after bound hc _ ih =>
    obtain ⟨cs, hgrown, hcs⟩ := ih
    rw [hc] at hgrown hcs
    exact ⟨_, .element hgrown .nil, by simp [hcs, Ending.pieces, Piece.closers]⟩

namespace Forest

variable {f : Forest} {ps : List Piece}

theorem Grown.slices_eq (h : f.Grown ps) : ps.flatMap Piece.slices = f.slices := by
  induction h with
  | nil => rfl
  | @whole p m rest ps hp _ ih =>
    rw [List.flatMap_cons, ih, hp.slices_eq]
    cases m <;> rfl
  | @element tag s children rest closing cs ps _ _ ihc ihr =>
    rw [slices, ← ihc, ← ihr]
    cases closing <;> simp [Piece.closers, Piece.slices]

/-- The start tags of the pieces are those of the nodes. -/
theorem Grown.tags (h : f.Grown ps) (n : NodeId) (ancestors : List (NodeId × StartTag)) :
    (f.positions n ancestors).filterMap (·.node.tag?) = ps.filterMap Piece.tag? := by
  induction h generalizing n ancestors with
  | nil => rfl
  | @whole p m rest ps hp _ ih =>
    have hbelow : (m.below (fun _ => false) n ancestors).filterMap (·.node.tag?) = [] :=
      List.filterMap_eq_nil_iff.2 fun q hq => hp.tag?_of_below hq
    rw [positions, Node.walk_onto, List.filterMap_cons, List.filterMap_cons, hp.tag?_eq,
      if_neg Bool.false_ne_true, List.filterMap_append, hbelow, List.nil_append, ← ih]
    rfl
  | @element tag s children rest closing cs ps _ _ ihc ihr =>
    have hclosers : (Piece.closers tag closing).filterMap Piece.tag? = [] := by
      cases closing <;> rfl
    rw [positions_element, List.filterMap_cons, List.filterMap_append, ihc, ihr,
      List.filterMap_append, List.cons_append, List.filterMap_cons, List.filterMap_append, hclosers,
      List.append_nil]
    rfl

/-- The tags of the nodes are read from their texts as those of the pieces are. -/
theorem Grown.read (h : f.Grown ps) (hps : ∀ p ∈ ps, p.Read) {n : NodeId}
    {ancestors : List (NodeId × StartTag)} {q : Position} (hq : q ∈ f.positions n ancestors) :
    q.node.Read := by
  induction h generalizing n ancestors with
  | nil => exact absurd hq List.not_mem_nil
  | @whole p m rest ps hp _ ih =>
    obtain ⟨hread, hrest⟩ := List.forall_mem_cons.1 hps
    rw [positions, Node.walk_onto, if_neg Bool.false_ne_true] at hq
    rcases List.mem_cons.1 hq with rfl | hq
    · exact hp.read hread
    · rcases List.mem_append.1 hq with hq | hq
      · exact Node.read_of_tag?_eq_none (hp.tag?_of_below hq)
      · exact ih hrest hq
  | @element tag s children rest closing cs ps _ _ ihc ihr =>
    simp only [List.cons_append, List.forall_mem_cons, List.forall_mem_append] at hps
    obtain ⟨hopening, ⟨hcs, -⟩, hps⟩ := hps
    rw [positions_element] at hq
    rcases List.mem_cons.1 hq with rfl | hq
    · exact hopening
    · rcases List.mem_append.1 hq with hq | hq
      · exact ihc hcs hq
      · exact ihr hps hq

/-- An element that cannot have content has none. -/
theorem Grown.children_eq_nil (h : f.Grown ps) (hps : ∀ p ∈ ps, p.Lexed) {n : NodeId}
    {ancestors : List (NodeId × StartTag)} {q : Position} (hq : q ∈ f.positions n ancestors)
    {tag : StartTag} (htag : q.node.tag? = some tag)
    (hvoid : lower tag.name ∈ Piece.voidElements) : q.node.children = .nil := by
  induction h generalizing n ancestors with
  | nil => exact absurd hq List.not_mem_nil
  | @whole p m rest ps hp _ ih =>
    obtain ⟨hlexed, hrest⟩ := List.forall_mem_cons.1 hps
    rw [positions, Node.walk_onto, if_neg Bool.false_ne_true] at hq
    rcases List.mem_cons.1 hq with rfl | hq
    · obtain ⟨s, rfl⟩ := hlexed tag (hp.tag?_eq.trans htag) hvoid
      cases hp
      rfl
    · rcases List.mem_append.1 hq with hq | hq
      · rw [hp.tag?_of_below hq] at htag
        cases htag
      · exact ih hrest hq
  | @element tag' s children rest closing cs ps _ _ ihc ihr =>
    simp only [List.cons_append, List.forall_mem_cons, List.forall_mem_append] at hps
    obtain ⟨hopening, ⟨hcs, -⟩, hps⟩ := hps
    rw [positions_element] at hq
    rcases List.mem_cons.1 hq with rfl | hq
    · cases htag
      obtain ⟨s, hleaf⟩ := hopening tag rfl hvoid
      cases hleaf
    · rcases List.mem_append.1 hq with hq | hq
      · exact ihc hcs hq
      · exact ihr hps hq

theorem grown_parse (source : Text) : (parse source).Grown (Piece.all 0 source) := by
  obtain ⟨ps, hgrown, hps⟩ := grown_grow [] (Piece.all 0 source)
  cases hend : (grow [] (Piece.all 0 source)).ending with
  | source =>
    rw [hend] at hps
    simp only [Ending.pieces, List.append_nil] at hps
    rw [parse, hps]
    rw [hps] at hgrown
    exact hgrown
  | endTag name s rest => exact absurd (grow_ending hend) List.not_mem_nil

/-- The tag of every element has been read from its text. -/
theorem parse_of_node {source : Text} {q : Position} (hq : q ∈ (parse source).positions 0 [])
    {tag : StartTag} {opening : Slice} {children : Forest} {closing : Option Slice}
    (hnode : q.node = .element tag opening children closing) :
    StartTag.parse opening.text = tag := by
  have hread := (grown_parse source).read (Piece.read_of_all 0 source) hq
  rw [hnode] at hread
  exact hread

theorem exists_parse_of_node {source : Text} {q : Position} (hq : q ∈ (parse source).positions 0 [])
    {tag : StartTag} (htag : q.node.tag? = some tag) : ∃ t, StartTag.parse t = tag := by
  obtain ⟨opening, children, closing, hnode⟩ := Node.tag?_eq_some.1 htag
  exact ⟨opening.text, parse_of_node hq hnode⟩

end Forest

end RichContent
