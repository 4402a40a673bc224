/-
Slices in their source, and slices that follow each other.

`Tile a slices b` says that slices, none of them empty, follow each other from
byte `a` to byte `b` without a gap and without an overlap. Then each run of
them is itself one slice of the text that they are together (`Tile.run_in`).
-/
import RichContent.Text.Slice

namespace RichContent

open Text

theorem Text.utf8Size_pos {t : Text} (h : t ≠ []) : 0 < t.utf8Size := by
  cases t with
  | nil => exact absurd rfl h
  | cons c t =>
    have hc : 0 < c.utf8Size := c.utf8Size_pos
    rw [utf8Size_cons]
    omega

namespace Slice

/-- The slice is what stands in the source at its place. -/
def In (s : Slice) (source : Text) : Prop :=
  ∃ before after, source = before ++ s.text ++ after ∧ s.start = before.utf8Size

/-- The text that slices are together. -/
def join (slices : List Slice) : Text := slices.flatMap (·.text)

@[simp] theorem join_nil : join [] = [] := rfl

@[simp] theorem join_cons (s : Slice) (l : List Slice) : join (s :: l) = s.text ++ join l := rfl

@[simp] theorem join_append (l m : List Slice) : join (l ++ m) = join l ++ join m :=
  List.flatMap_append

/-- Slices that are not empty follow each other from the first byte to the last. -/
def Tile : Nat → List Slice → Nat → Prop
  | a, [], b => a = b
  | a, s :: rest, b => s.start = a ∧ s.text ≠ [] ∧ Tile s.stop rest b

theorem Tile.stop_eq {a b : Nat} {l : List Slice} (h : Tile a l b) :
    b = a + (join l).utf8Size := by
  induction l generalizing a with
  | nil => exact h.symm
  | cons s l ih =>
    obtain ⟨hs, -, hl⟩ := h
    have := ih hl
    simp only [stop, hs, join_cons, utf8Size_append] at this ⊢
    omega

theorem Tile.le {a b : Nat} {l : List Slice} (h : Tile a l b) : a ≤ b := by
  have := h.stop_eq
  omega

theorem tile_append {a b : Nat} {l m : List Slice} :
    Tile a (l ++ m) b ↔ ∃ c, Tile a l c ∧ Tile c m b := by
  induction l generalizing a with
  | nil => simp [Tile]
  | cons s l ih =>
    simp only [List.cons_append, Tile, ih]
    constructor
    · rintro ⟨hs, hn, c, hl, hm⟩
      exact ⟨c, ⟨hs, hn, hl⟩, hm⟩
    · rintro ⟨c, ⟨hs, hn, hl⟩, hm⟩
      exact ⟨hs, hn, c, hl, hm⟩

theorem Tile.stop_of_last {a b : Nat} {l : List Slice} {s : Slice} (h : Tile a (l ++ [s]) b) :
    s.stop = b := by
  obtain ⟨c, -, -, -, hstop⟩ := tile_append.1 h
  exact hstop

theorem tile_singleton {s : Slice} (h : s.text ≠ []) : Tile s.start [s] s.stop := ⟨rfl, h, rfl⟩

/-- A run of the slices that a source is tiled with is one slice of it. -/
theorem Tile.run_in {l m r : List Slice} {b : Nat} (h : Tile 0 (l ++ m ++ r) b) :
    ∃ a c, Tile a m c ∧ (Slice.mk a (join m)).In (join (l ++ m ++ r)) := by
  obtain ⟨c, hlm, -⟩ := tile_append.1 h
  obtain ⟨a, hl, hm⟩ := tile_append.1 hlm
  exact ⟨a, c, hm, join l, join r, by simp, by simpa using hl.stop_eq⟩

end Slice

end RichContent
