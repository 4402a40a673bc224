/-
A source is tiled by the slices of its forest.

The slices of a forest are its tags, texts and raw pieces in the order in
which they are written. Growing a forest from pieces neither loses, adds nor
moves a slice (`grow_slices`), whatever is left open, closed early or closed
twice; and the pieces of a source tile it (`all_tile`). So the slices of a
parsed forest tile the source (`parse_tile`), and those of each node are one
stretch of it.
-/
import RichContent.Markup.Forest.Growth
import RichContent.Proofs.Text.Tile

namespace RichContent

open Text

/-! ## The slices of a forest -/

namespace Forest

/-- The slices of a forest, in the order in which they are written. -/
def slices : Forest → List Slice
  | nil => []
  | text s rest => s :: rest.slices
  | raw s rest => s :: rest.slices
  | element _ opening children closing rest =>
    opening :: children.slices ++ closing.toList ++ rest.slices

/-- The nodes at the top of a forest. -/
def top : Forest → List Node
  | nil => []
  | text s rest => .text s :: rest.top
  | raw s rest => .raw s :: rest.top
  | element tag opening children closing rest =>
    .element tag opening children closing :: rest.top

end Forest

namespace Node

/-- The slices of a node, in the order in which they are written. -/
def slices : Node → List Slice
  | text s => [s]
  | raw s => [s]
  | element _ opening children closing => opening :: children.slices ++ closing.toList

/-- The first byte of a node. -/
def start : Node → Nat
  | text s => s.start
  | raw s => s.start
  | element _ opening _ _ => opening.start

/-- The stretch of the source that a node is, from the beginning of its start tag to the end of
all that belongs to it. -/
def slice (n : Node) : Slice := ⟨n.start, Slice.join n.slices⟩

/-- A node begins and ends where its slices do. -/
theorem slice_of_tile {n : Node} {a b : Nat} (h : Slice.Tile a n.slices b) :
    n.slice.start = a ∧ n.slice.stop = b := by
  have ha : n.slice.start = a := by cases n <;> exact h.1
  refine ⟨ha, ?_⟩
  rw [h.stop_eq, ← ha]
  rfl

theorem join_slices_ne_nil {n : Node} {a b : Nat} (h : Slice.Tile a n.slices b) :
    Slice.join n.slices ≠ [] := by
  cases n <;> simp only [slices, List.cons_append] at h ⊢ <;> simp [h.2.1]

end Node

/-- A forest in which nothing is replaced is written as its slices. -/
theorem Forest.write_html (f : Forest) (n : NodeId) :
    f.write .html (fun _ => none) n = Slice.join f.slices := by
  induction f generalizing n with
  | nil => rfl
  | text s rest ih => simp [write, slices, ih]
  | raw s rest ih => simp [write, slices, ih]
  | element tag opening children closing rest ihc ihr =>
    cases closing <;> simp [write, slices, ihc, ihr]

/-- A node in which nothing is replaced is written as the stretch of the source that it is. -/
theorem Node.write_html (n : Node) (id : NodeId) :
    n.write .html (fun _ => none) id = n.slice.text := by
  cases n with
  | text s => simp [write, slice, slices]
  | raw s => simp [write, slice, slices]
  | element tag opening children closing =>
    rw [write_element]
    cases closing <;>
      simp [Forest.write_html, slice, slices]

/-- The nodes at the top of a forest follow each other where the slices do. -/
theorem Forest.tile_top {f : Forest} {a b : Nat} (h : Slice.Tile a f.slices b) :
    Slice.Tile a (f.top.map Node.slice) b := by
  induction f generalizing a with
  | nil => exact h
  | text s rest ih =>
    obtain ⟨rfl, hn, hr⟩ := h
    exact ⟨rfl, by simpa [Node.slice, Node.slices] using hn, by
      simpa [Slice.stop, Node.slice, Node.slices, Node.start] using ih hr⟩
  | raw s rest ih =>
    obtain ⟨rfl, hn, hr⟩ := h
    exact ⟨rfl, by simpa [Node.slice, Node.slices] using hn, by
      simpa [Slice.stop, Node.slice, Node.slices, Node.start] using ih hr⟩
  | element tag opening children closing rest _ ih =>
    obtain ⟨c, hn, hr⟩ := Slice.tile_append.1 h
    obtain ⟨hstart, hstop⟩ := Node.slice_of_tile (n := .element tag opening children closing) hn
    refine ⟨hstart, Node.join_slices_ne_nil hn, ?_⟩
    rw [hstop]
    exact ih hr

/-! ## The slices of pieces -/

namespace Piece

/-- The slices of a piece, in the order in which they are written. -/
def slices : Piece → List Slice
  | text s | raw s | leaf _ s | opening _ s | closing _ s => [s]
  | verbatim _ s content close => s :: (Forest.verbatim content).slices ++ close.toList

theorem verbatim_slices (s : Slice) :
    (Forest.verbatim s).slices = if s.text = [] then [] else [s] := by
  rw [Forest.verbatim]
  split <;> rfl

/-- What ends an element taken as it stands is not empty. -/
theorem closing_ne_nil {name t tag : Text} (h : (cutVerbatim name t).closing = some tag) :
    tag ≠ [] := by
  induction t with
  | nil => cases h
  | cons c t ih =>
    rw [cutVerbatim] at h
    split at h
    · split at h
      · rename_i before after hcut
        cases h
        exact ne_nil_of_cutAfterGreater hcut
      · cases h
    · exact ih h

/-- An element taken as it stands is tiled by its start tag, content and end tag. -/
theorem tile_ofVerbatim (tag : StartTag) {opening : Slice} (ho : opening.text ≠ [])
    (name t : Text) :
    Slice.Tile opening.start (ofVerbatim tag opening (cutVerbatim name t)).slices
        (opening.stop + (cutVerbatim name t).content.utf8Size
          + ((cutVerbatim name t).closing.getD []).utf8Size) ∧
      Slice.join (ofVerbatim tag opening (cutVerbatim name t)).slices ++ (cutVerbatim name t).after
        = opening.text ++ t := by
  have happ := cutVerbatim_append name t
  have hne := @closing_ne_nil name t
  generalize cutVerbatim name t = v at happ hne
  obtain ⟨content, close, after⟩ := v
  subst happ
  by_cases hc : content = [] <;> cases close <;>
    simp_all [ofVerbatim, slices, verbatim_slices, Slice.Tile]

/-- The first piece of a source and what follows it are the source. -/
theorem all_cons (start : Nat) (c : Char) (rest : Text) : ∃ p after stop,
    all start (c :: rest) = p :: all stop after ∧ after.length ≤ rest.length ∧
      Slice.Tile start p.slices stop ∧ Slice.join p.slices ++ after = c :: rest := by
  have happ := Lexeme.next_append c rest
  have hne := Lexeme.next_text_ne_nil c rest
  have hlen := Lexeme.length_next_after c rest
  have hone : Slice.Tile start [⟨start, (Lexeme.next c rest).text⟩]
      (Slice.mk start (Lexeme.next c rest).text).stop := Slice.tile_singleton hne
  rw [all]
  simp only
  cases (Lexeme.next c rest).kind with
  | startTag tag =>
    simp only
    split
    · exact ⟨_, _, _, rfl, hlen, hone, by simpa [slices] using happ⟩
    · split
      · obtain ⟨htile, hjoin⟩ :=
          tile_ofVerbatim tag (show (Slice.mk start (Lexeme.next c rest).text).text ≠ [] from hne)
            tag.name (Lexeme.next c rest).after
        exact ⟨_, _, _, rfl, Nat.le_trans (length_cutVerbatim_after _ _) hlen, htile,
          hjoin.trans happ⟩
      · exact ⟨_, _, _, rfl, hlen, hone, by simpa [slices] using happ⟩
  | _ => exact ⟨_, _, _, rfl, hlen, hone, by simpa [slices] using happ⟩

/-- The pieces of a source tile it. -/
theorem all_tile (start : Nat) (t : Text) :
    Slice.Tile start ((all start t).flatMap slices) (start + t.utf8Size) ∧
      Slice.join ((all start t).flatMap slices) = t := by
  induction hn : t.length using Nat.strongRecOn generalizing start t with
  | ind n ih =>
    cases t with
    | nil => simp [all, Slice.Tile]
    | cons c rest =>
      obtain ⟨p, after, stop, hall, hlen, htile, happ⟩ := all_cons start c rest
      obtain ⟨hrest, hjoin⟩ := ih after.length (by simp at hn; omega) stop after rfl
      have hstop := htile.stop_eq
      rw [hall, List.flatMap_cons, Slice.join_append, hjoin, happ, ← happ, utf8Size_append,
        ← Nat.add_assoc, ← hstop]
      exact ⟨Slice.tile_append.2 ⟨stop, htile, hrest⟩, rfl⟩

end Piece

/-! ## Growing -/

/-- The slices that are left when a run of siblings has come to its end. -/
def Ending.slices : Ending → List Slice
  | source => []
  | endTag _ s rest => s :: rest.flatMap Piece.slices

/-- Growing a forest keeps every slice at its place. -/
theorem Forest.grow_slices (opened : List Text) (pieces : List Piece) :
    (grow opened pieces).forest.slices ++ (grow opened pieces).ending.slices
      = pieces.flatMap Piece.slices := by
  fun_induction grow opened pieces with
  | case1 => rfl
  | case2 opened s rest ih => simpa [Growth.map, slices, Piece.slices] using ih
  | case3 opened s rest ih => simpa [Growth.map, slices, Piece.slices] using ih
  | case4 opened tag s rest ih => simpa [Growth.map, slices, Piece.slices] using ih
  | case5 opened tag s content close rest ih => simpa [Growth.map, slices, Piece.slices] using ih
  | case6 opened name s rest _ => rfl
  | case7 opened name s rest _ ih => simpa [Growth.map, slices, Piece.slices] using ih
  | case8 opened tag s rest children bound hc ih =>
    rw [hc] at ih
    simpa [slices, Piece.slices, Ending.slices] using ih
  | case9 opened tag s rest children close after g bound hc ihc ihr =>
    rw [hc] at ihc
    simp only [slices, List.append_assoc, Option.toList_some, List.cons_append, List.nil_append]
    rw [ihr]
    simpa [Ending.slices, Piece.slices] using ihc
  | case10 opened tag s rest children name close after bound hc _ ih =>
    rw [hc] at ih
    simpa [slices, Piece.slices, Ending.slices] using ih

/-- A run of siblings ends at the end tag of an element around it, or with the pieces. -/
theorem Forest.grow_ending {opened : List Text} {pieces : List Piece} {name : Text} {s : Slice}
    {rest : List Piece} (h : (grow opened pieces).ending = .endTag name s rest) :
    name ∈ opened := by
  fun_induction grow opened pieces with
  | case1 => cases h
  | case2 opened s rest ih => exact ih h
  | case3 opened s rest ih => exact ih h
  | case4 opened tag s rest ih => exact ih h
  | case5 opened tag s content close rest ih => exact ih h
  | case6 opened name s rest hm => cases h; exact hm
  | case7 opened name s rest _ ih => exact ih h
  | case8 opened tag s rest children bound hc ih => cases h
  | case9 opened tag s rest children close after g bound hc ihc ihr => exact ihr h
  | case10 opened tag s rest children name close after bound hc hne ih =>
    cases h
    rw [hc] at ih
    exact (List.mem_cons.1 (ih rfl)).resolve_left hne

/-- **The slices of a parsed forest tile the source.** -/
theorem Forest.parse_tile (source : Text) :
    Slice.Tile 0 (parse source).slices source.utf8Size ∧
      Slice.join (parse source).slices = source := by
  have hs : (parse source).slices = (Piece.all 0 source).flatMap Piece.slices := by
    have h := grow_slices [] (Piece.all 0 source)
    cases he : (grow [] (Piece.all 0 source)).ending with
    | source =>
      rw [he] at h
      exact (List.append_nil _).symm.trans h
    | endTag name s rest => exact absurd (grow_ending he) List.not_mem_nil
  rw [hs]
  simpa using Piece.all_tile 0 source

end RichContent
