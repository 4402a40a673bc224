/-
The forest of a source, planted into a table of nodes.

A forest is planted node by node (`Arena.plant`), and its cells come behind the
others in the order of its numbers (`plant_eq`). Filling a table with pieces
comes to the same: when a run of siblings has ended, its forest has been
planted, and what is open inside has other names than the end tag that the run
ended with (`Builder.Grows`).
-/
import RichContent.Proofs.Markup.Arena
import RichContent.Proofs.Markup.Grown

namespace RichContent

open Text

/-! ## The cells of a forest -/

/-- The cells of the nodes of a forest whose first node has number `n`. -/
def Forest.cells (n : NodeId) (parent : Option NodeId) : Forest → List Cell
  | nil => []
  | text s rest => ⟨.text s, parent, []⟩ :: rest.cells (n + 1) parent
  | raw s rest => ⟨.raw s, parent, []⟩ :: rest.cells (n + 1) parent
  | element tag opening children closing rest =>
    ⟨.element tag opening closing, parent, children.siblings (n + 1)⟩ ::
      (children.cells (n + 1) (some n) ++ rest.cells (n + 1 + children.size) parent)

theorem Forest.length_cells (f : Forest) (n : NodeId) (parent : Option NodeId) :
    (f.cells n parent).length = f.size := by
  induction f generalizing n parent with
  | nil => rfl
  | text s rest ih | raw s rest ih => simp [cells, size, ih, Nat.add_comm]
  | element tag opening children closing rest ihc ihr =>
    simp [cells, size, ihc, ihr]
    omega

namespace Arena

variable {a : Arena} {parent : Option Nat} {id : Nat}

/-- Puts cells behind the others, and the numbers of those that are siblings under their parent. -/
def extend (a : Arena) (parent : Option NodeId) (siblings : List NodeId) (cells : List Cell) :
    Arena :=
  match parent with
  | some p => { a with
      cells := a.cells.modify p (fun c => { c with children := c.children ++ siblings }) ++ cells }
  | none => { a with cells := a.cells ++ cells, roots := a.roots ++ siblings }

@[simp] theorem next_extend (siblings : List NodeId) (cells : List Cell) :
    (a.extend parent siblings cells).next = a.next + cells.length := by
  cases parent <;> simp [extend, next]

@[simp] theorem source_extend (siblings : List NodeId) (cells : List Cell) :
    (a.extend parent siblings cells).source = a.source := by
  cases parent <;> rfl

theorem roots_extend (siblings : List NodeId) (cells : List Cell) :
    (a.extend parent siblings cells).roots =
      if parent = none then a.roots ++ siblings else a.roots := by
  cases parent <;> rfl

theorem cell?_extend (siblings : List NodeId) (cells : List Cell) :
    (a.extend parent siblings cells).cell? id =
      if id < a.next then
        (a.cell? id).map fun c =>
          if parent = some id then { c with children := c.children ++ siblings } else c
      else cells[id - a.next]? := by
  cases parent with
  | none => simp [extend, cell?, next, List.getElem?_append]
  | some p => simp [extend, cell?, next, List.getElem?_append, List.getElem?_modify]

theorem eq_of_cell? {a b : Arena} (hsource : a.source = b.source) (hroots : a.roots = b.roots)
    (hcells : ∀ id : Nat, a.cell? id = b.cell? id) : a = b := by
  obtain ⟨source, cells, roots⟩ := a
  obtain ⟨source', cells', roots'⟩ := b
  obtain rfl : source = source' := hsource
  obtain rfl : roots = roots' := hroots
  obtain rfl : cells = cells' := List.ext_getElem? hcells
  rfl

theorem extend_nil : a.extend parent [] [] = a := by
  refine eq_of_cell? (source_extend _ _) ?_ fun id => ?_
  · rw [roots_extend, List.append_nil, ite_self]
  · rw [cell?_extend]
    split
    · simp
    · rename_i hid
      exact (List.getElem?_eq_none (Nat.le_of_not_lt hid)).symm

@[simp] theorem source_push {kind : Cell.Kind} : (a.push kind parent).source = a.source := by
  cases parent <;> rfl

theorem push_eq_extend (h : ∀ p ∈ parent, p < a.next) (kind : Cell.Kind) :
    a.push kind parent = a.extend parent [a.next] [⟨kind, parent, []⟩] := by
  refine eq_of_cell? (source_push.trans (source_extend _ _).symm) ?_ fun id => ?_
  · rw [roots_push, roots_extend]
  · rw [cell?_push h, cell?_extend]
    rcases Nat.lt_trichotomy id a.next with hid | rfl | hid
    · rw [if_neg (Nat.ne_of_lt hid), if_pos hid]
      rfl
    · simp
    · have hnone : a.cell? id = none := List.getElem?_eq_none (Nat.le_of_lt hid)
      have hpos : id - a.next ≠ 0 := Nat.sub_ne_zero_of_lt hid
      rw [if_neg (Nat.ne_of_gt hid), if_neg (Nat.lt_asymm hid), hnone]
      simp [hpos]

/-- Siblings are added one after the other. -/
theorem extend_extend (h : ∀ p ∈ parent, p < a.next) (l l' : List NodeId) (cells cells' : List Cell) :
    (a.extend parent l cells).extend parent l' cells' =
      a.extend parent (l ++ l') (cells ++ cells') := by
  refine eq_of_cell? ?_ ?_ fun id => ?_
  · simp only [source_extend]
  · simp only [roots_extend]
    split <;> simp
  · simp only [cell?_extend, next_extend]
    by_cases hid : id < a.next
    · have hid' : id < a.next + cells.length := Nat.lt_add_right _ hid
      simp only [hid, hid', if_true, Option.map_map]
      congr 1
      funext c
      simp only [Function.comp_apply]
      split <;> simp
    · have hne : parent ≠ some id := fun hp => hid (h id hp)
      simp only [hid, if_false, hne, Option.map_id', List.getElem?_append]
      split <;> split
      · rfl
      · omega
      · omega
      · congr 1
        omega

/-- An element is added with what is below it. -/
theorem extend_below (h : ∀ p ∈ parent, p < a.next) (kind : Cell.Kind) (l : List NodeId)
    (cells : List Cell) :
    (a.push kind parent).extend (some a.next) l cells =
      a.extend parent [a.next] (⟨kind, parent, l⟩ :: cells) := by
  rw [push_eq_extend h]
  refine eq_of_cell? ?_ ?_ fun id => ?_
  · simp only [source_extend]
  · simp [roots_extend]
  · simp only [cell?_extend, next_extend]
    rcases Nat.lt_trichotomy id a.next with hid | rfl | hid
    · have hne : a.next ≠ id := Nat.ne_of_gt hid
      simp only [hid, Nat.lt_succ_of_lt hid, hne, List.length_singleton, if_true, Option.some.injEq,
        if_false, Option.map_id']
    · simp
    · have hid' : ¬id < a.next := Nat.lt_asymm hid
      have hid'' : ¬id < a.next + 1 := by omega
      obtain ⟨k, rfl⟩ : ∃ k, id = a.next + 1 + k := ⟨id - (a.next + 1), by omega⟩
      have hk : a.next + 1 + k - a.next = k + 1 := by omega
      have hk' : a.next + 1 + k - (a.next + 1) = k := Nat.add_sub_cancel_left ..
      simp only [hid', hid'', if_false, hk, hk', List.length_singleton, List.getElem?_cons_succ]

theorem close_extend (tag : StartTag) (opening endTag : Slice) (closing : Option Slice)
    (l l' : List NodeId) (cells : List Cell) :
    (a.extend parent l (⟨.element tag opening closing, parent, l'⟩ :: cells)).close a.next endTag =
      a.extend parent l (⟨.element tag opening (some endTag), parent, l'⟩ :: cells) := by
  refine eq_of_cell? (by simp [close, update]) ?_ fun id => ?_
  · rw [close, update, roots_extend, roots_extend]
  · rw [close, cell?_update, cell?_extend, cell?_extend]
    rcases Nat.lt_trichotomy id a.next with hid | rfl | hid
    · have hne : a.next ≠ id := Nat.ne_of_gt hid
      simp only [hid, hne, if_true, if_false, Option.map_id']
    · simp [Cell.close]
    · have hne : a.next ≠ id := Nat.ne_of_lt hid
      have hpos : id - a.next ≠ 0 := Nat.sub_ne_zero_of_lt hid
      simp [Nat.lt_asymm hid, hne, List.getElem?_cons, hpos]

/-! ## Planting a forest -/

/-- Adds the nodes of a forest one by one. -/
def plant (a : Arena) (parent : Option NodeId) : Forest → Arena
  | .nil => a
  | .text s rest => (a.push (.text s) parent).plant parent rest
  | .raw s rest => (a.push (.raw s) parent).plant parent rest
  | .element tag opening children closing rest =>
    let below := (a.push (.element tag opening none) parent).plant (some a.next) children
    (closing.elim below (below.close a.next)).plant parent rest

theorem plant_eq (f : Forest) (h : ∀ p ∈ parent, p < a.next) :
    a.plant parent f = a.extend parent (f.siblings a.next) (f.cells a.next parent) := by
  induction f generalizing a parent with
  | nil => exact extend_nil.symm
  | text s rest ih | raw s rest ih =>
    have hnext : ∀ p ∈ parent, p < a.next + 1 := fun p hp => Nat.lt_succ_of_lt (h p hp)
    rw [plant, ih (by rwa [next_push]), next_push, push_eq_extend h, extend_extend h]
    rfl
  | element tag opening children closing rest ihc ihr =>
    have hbelow : (a.push (.element tag opening none) parent).plant (some a.next) children =
        a.extend parent [a.next] (⟨.element tag opening none, parent, children.siblings (a.next + 1)⟩ ::
          children.cells (a.next + 1) (some a.next)) := by
      rw [ihc (by simp), next_push, extend_below h]
    have hclosed : closing.elim ((a.push (.element tag opening none) parent).plant (some a.next)
          children) (((a.push (.element tag opening none) parent).plant (some a.next)
          children).close a.next) =
        a.extend parent [a.next] (⟨.element tag opening closing, parent,
          children.siblings (a.next + 1)⟩ :: children.cells (a.next + 1) (some a.next)) := by
      rw [hbelow]
      cases closing with
      | none => rfl
      | some endTag => exact close_extend ..
    have hnext : (a.extend parent [a.next] (⟨.element tag opening closing, parent,
          children.siblings (a.next + 1)⟩ :: children.cells (a.next + 1) (some a.next))).next =
        a.next + 1 + children.size := by
      rw [next_extend, List.length_cons, Forest.length_cells]
      omega
    rw [plant, hclosed, ihr, hnext, extend_extend h]
    · simp [Forest.siblings, Forest.cells]
    · intro p hp
      have := h p hp
      rw [hnext]
      omega

/-! ## Names of open elements -/

theorem name?_push {kind : Cell.Kind} (h : ∀ p ∈ parent, p < a.next) (hid : id < a.next) :
    (a.push kind parent).name? id = a.name? id := by
  rw [name?, cell?_push h, if_neg (Nat.ne_of_lt hid), name?]
  cases a.cell? id with
  | none => rfl
  | some x => by_cases hx : parent = some id <;> simp [hx, Cell.adopt, Cell.name?]

theorem name?_plant (f : Forest) (h : ∀ p ∈ parent, p < a.next) (hid : id < a.next) :
    (a.plant parent f).name? id = a.name? id := by
  rw [plant_eq f h, name?, cell?_extend, if_pos hid, name?]
  cases a.cell? id with
  | none => rfl
  | some x => by_cases hx : parent = some id <;> simp [hx, Cell.name?]

theorem name?_close (id' : NodeId) (endTag : Slice) :
    (a.close id' endTag).name? id = a.name? id := by
  rw [name?, close, cell?_update, name?]
  cases a.cell? id with
  | none => rfl
  | some x =>
    obtain ⟨kind, parent, children⟩ := x
    by_cases hid : id' = id <;> cases kind <;> simp [hid, Cell.close, Cell.name?]

theorem lt_next_of_name? {name : Text} (h : a.name? id = some name) : id < a.next := by
  obtain ⟨x, hx, -⟩ := Option.bind_eq_some_iff.1 h
  exact lt_next_of_cell? hx

namespace Builder

/-- The names of the open elements. -/
def Opened (b : Builder) (names : List Text) : Prop :=
  b.opened.map b.arena.name? = names.map some

variable {b : Builder} {names : List Text}

theorem Opened.lt_next (h : b.Opened names) : ∀ p ∈ b.opened, p < b.arena.next := by
  intro p hp
  have hname : b.arena.name? p ∈ names.map some := h ▸ List.mem_map_of_mem hp
  obtain ⟨name, -, hname⟩ := List.mem_map.1 hname
  exact lt_next_of_name? hname.symm

theorem Opened.head_lt (h : b.Opened names) : ∀ p ∈ b.opened.head?, p < b.arena.next :=
  fun p hp => h.lt_next p (List.mem_of_mem_head? hp)

theorem Opened.congr {a : Arena} (h : b.Opened names)
    (ha : ∀ p ∈ b.opened, a.name? p = b.arena.name? p) : Opened ⟨a, b.opened⟩ names := by
  rw [Opened, ← h]
  exact List.map_congr_left ha

theorem Opened.add (h : b.Opened names) (kind : Cell.Kind) : (b.add kind).Opened names :=
  h.congr fun p hp => name?_push h.head_lt (h.lt_next p hp)

theorem Opened.plant (h : b.Opened names) (f : Forest) :
    Opened ⟨b.arena.plant b.opened.head? f, b.opened⟩ names :=
  h.congr fun p hp => name?_plant f h.head_lt (h.lt_next p hp)

theorem Opened.opening (h : b.Opened names) (tag : StartTag) (s : Slice) :
    Opened ⟨(b.add (.element tag s none)).arena, b.arena.next :: b.opened⟩ (tag.name :: names) := by
  have hadd := h.add (.element tag s none)
  rw [Opened, List.map_cons, List.map_cons, ← hadd]
  congr 1
  rw [name?, Builder.add, cell?_push h.head_lt, if_pos rfl]
  rfl

theorem Opened.name?_opening (h : b.Opened names) (tag : StartTag) (s : Slice) (f : Forest) :
    ((b.add (.element tag s none)).arena.plant (some b.arena.next) f).name? b.arena.next =
      some tag.name := by
  have hopened := (h.opening tag s).plant f
  exact (List.cons.inj hopened).1

/-- The pieces plant a forest in the table. If it ends with an end tag, that is the end tag of an
element around the forest, and what is open inside has other names. -/
def Grows (b : Builder) (names : List Text) (pieces : List Piece) (f : Forest) (e : Ending) : Prop :=
  let planted := b.arena.plant b.opened.head? f
  ∃ inner, pieces.foldl step b = e.pieces.foldl step ⟨planted, inner ++ b.opened⟩ ∧
    ∀ name s rest, e = .endTag name s rest →
      name ∈ names ∧ ∀ id ∈ inner, planted.name? id ≠ some name

theorem Grows.cons {piece : Piece} {pieces : List Piece} {f f' : Forest} {e : Ending}
    (h : (b.step piece).Grows names pieces f e) (hopened : (b.step piece).opened = b.opened)
    (hplant : (b.step piece).arena.plant b.opened.head? f = b.arena.plant b.opened.head? f') :
    b.Grows names (piece :: pieces) f' e := by
  rw [Grows, hopened, hplant] at h
  exact h

theorem Opened.close {name : Text} {ids : List NodeId} (h : Opened ⟨a, id :: ids⟩ (name :: names))
    (s : Slice) : Opened ⟨a.close id s, ids⟩ names := by
  rw [Opened, ← (List.cons.inj h).2]
  exact List.map_congr_left fun p _ => name?_close id s

theorem dropWhile_eq_nil (h : b.Opened names) {name : Text} (hname : name ∉ names) :
    b.opened.dropWhile (fun id => b.arena.name? id != some name) = [] := by
  refine List.dropWhile_eq_nil_iff.2 fun id hid => bne_iff_ne.2 fun heq => hname ?_
  have hmem : b.arena.name? id ∈ names.map some := h ▸ List.mem_map_of_mem hid
  rw [heq] at hmem
  obtain ⟨own, hown, hsame⟩ := List.mem_map.1 hmem
  exact Option.some.inj hsame ▸ hown

/-- An end tag closes the innermost element of its name, and what is open inside. -/
theorem step_closing {name : Text} {inner ids : List NodeId}
    (hinner : ∀ p ∈ inner, a.name? p ≠ some name) (hid : a.name? id = some name) (s : Slice) :
    step ⟨a, inner ++ id :: ids⟩ (.closing name s) = ⟨a.close id s, ids⟩ := by
  have hdrop : (inner ++ id :: ids).dropWhile (fun p => a.name? p != some name) = id :: ids := by
    rw [List.dropWhile_append_of_pos fun p hp => bne_iff_ne.2 (hinner p hp),
      List.dropWhile_cons_of_neg (by simp [hid])]
  rw [step, hdrop]

theorem step_verbatim (b : Builder) (tag : StartTag) (s content : Slice) (closing : Option Slice) :
    b.step (.verbatim tag s content closing) = ⟨b.arena.plant b.opened.head?
      (.element tag s (Forest.verbatim content) closing .nil), b.opened⟩ := by
  rw [step, Forest.verbatim]
  split <;> rfl

/-- Filling the table with pieces plants their forest in it. -/
theorem grows (pieces : List Piece) (h : b.Opened names) :
    b.Grows names pieces (Forest.grow names pieces).forest (Forest.grow names pieces).ending := by
  fun_induction Forest.grow names pieces generalizing b with
  | case1 names => exact ⟨[], rfl, fun _ _ _ he => by cases he⟩
  | case2 names s rest ih | case3 names s rest ih | case4 names tag s rest ih =>
    exact .cons (ih (h.add _)) rfl rfl
  | case5 names tag s content closing rest ih =>
    have hstep := step_verbatim b tag s content closing
    refine .cons (hstep ▸ ih (h.plant _)) ?_ ?_
    · rw [hstep]
    · rw [hstep]
      rfl
  | case6 names name s rest hname =>
    refine ⟨[], rfl, fun _ _ _ he => ?_⟩
    cases he
    exact ⟨hname, fun _ hid => absurd hid List.not_mem_nil⟩
  | case7 names name s rest hname ih =>
    have hstep : b.step (.closing name s) = b.add (.raw s) := by
      rw [step, dropWhile_eq_nil h hname]
    refine .cons (hstep ▸ ih (h.add _)) ?_ ?_
    · rw [hstep]
      rfl
    · rw [hstep]
      rfl
  | case8 names tag s rest children bound hchildren ih =>
    -- the source ends in the element, which is still open
    obtain ⟨inner, hfold, -⟩ := ih (h.opening tag s)
    rw [hchildren] at hfold
    refine ⟨inner ++ [b.arena.next], ?_, fun _ _ _ he => by cases he⟩
    rw [List.append_assoc]
    exact hfold
  | case9 names tag s rest children slice after g bound hchildren ih =>
    rename_i ihrest
    obtain ⟨inner, hfold, hnames⟩ := ih (h.opening tag s)
    rw [hchildren] at hfold hnames
    obtain ⟨inner', hfold', hnames'⟩ := ihrest (((h.opening tag s).plant children).close slice)
    refine ⟨inner', (hfold.trans ?_).trans hfold', hnames'⟩
    exact congrArg (after.foldl step)
      (step_closing (hnames _ _ _ rfl).2 (h.name?_opening tag s children) slice)
  | case10 names tag s rest children name slice after bound hchildren hname ih =>
    -- the end tag is that of an element further out
    obtain ⟨inner, hfold, hnames⟩ := ih (h.opening tag s)
    rw [hchildren] at hfold hnames
    obtain ⟨hmem, hinner⟩ := hnames name slice after rfl
    refine ⟨inner ++ [b.arena.next], ?_, fun name' s' rest' he => ?_⟩
    · rw [List.append_assoc]
      exact hfold
    · cases he
      refine ⟨(List.mem_cons.1 hmem).resolve_left hname, List.forall_mem_append.2 ⟨hinner, ?_⟩⟩
      refine List.forall_mem_singleton.2 ?_
      have hown := h.name?_opening tag s children
      exact fun heq => hname (Option.some.inj (heq.symm.trans hown))

end Builder

/-- The table of a source is the forest of the source, planted. -/
theorem parse_eq_plant (source : Text) :
    parse source = (empty source).plant none (Forest.parse source) := by
  have hopened : Builder.Opened ⟨empty source, []⟩ [] := rfl
  obtain ⟨inner, hfold, hnames⟩ := Builder.grows (Piece.all 0 source) hopened
  cases hending : (Forest.grow [] (Piece.all 0 source)).ending with
  | source =>
    rw [hending] at hfold
    exact congrArg Builder.arena hfold
  | endTag name s rest => exact absurd (hnames name s rest hending).1 List.not_mem_nil

end Arena

end RichContent
