/-
Places in a text by bytes.

A place is a boundary if a character begins there or the text ends (`Bounds`).
What is between two boundaries can be cut out of the text (`Span.Cuts`).
`split?` and `cut?` cut by bytes and give nothing where a place is no boundary,
the places are out of order or the text ends before them, so that what they
give tells that none of this is the case (`split?_eq_some`, `cut?_eq_some`).
-/
import Mathlib.Data.List.TakeWhile
import RichContent.Proofs.Text.Tile

namespace RichContent

open Text

namespace Text

/-- Does a character begin, or the text end, behind so many bytes? -/
def Bounds (t : Text) (n : Nat) : Prop := ∃ front back, t = front ++ back ∧ front.utf8Size = n

theorem Bounds.le {t : Text} {n : Nat} (h : Bounds t n) : n ≤ t.utf8Size := by
  obtain ⟨front, back, rfl, rfl⟩ := h
  rw [utf8Size_append]
  exact Nat.le_add_right _ _

end Text

namespace Span

/-- What the span cuts out of the text. -/
def Cuts (span : Span) (t w : Text) : Prop :=
  ∃ front back, t = front ++ w ++ back ∧ span = (Slice.mk front.utf8Size w).span

variable {span : Span} {t w : Text}

theorem cuts_empty {n : Nat} (h : Bounds t n) : (Span.mk n n).Cuts t [] := by
  obtain ⟨front, back, rfl, rfl⟩ := h
  exact ⟨front, back, by simp, by simp [Slice.span]⟩

theorem cuts_of_start_eq_zero {n : Nat} (h : Bounds t n) : ∃ w, (Span.mk 0 n).Cuts t w := by
  obtain ⟨front, back, rfl, rfl⟩ := h
  exact ⟨front, [], back, by simp, by simp [Slice.span]⟩

theorem Cuts.bounds (h : span.Cuts t w) : Bounds t span.stop := by
  obtain ⟨front, back, rfl, rfl⟩ := h
  exact ⟨front ++ w, back, rfl, by simp [Slice.span]⟩

theorem Cuts.within (h : span.Cuts t w) : span.start ≤ span.stop ∧ span.stop ≤ t.utf8Size := by
  obtain ⟨front, back, rfl, rfl⟩ := h
  simp [Slice.span]

end Span

namespace Text

/-! ## Cutting by bytes -/

/-- The first `n` bytes and what is behind them, if a character ends there. -/
def split? : (n : Nat) → Text → Option (Text × Text)
  | 0, t => some ([], t)
  | _ + 1, [] => none
  | n + 1, c :: t =>
    if c.utf8Size ≤ n + 1 then (split? (n + 1 - c.utf8Size) t).map fun x => (c :: x.1, x.2)
    else none

/-- What is between two places, if they are in order and boundaries. -/
def cut? (start stop : Nat) (t : Text) : Option Text :=
  if start ≤ stop then
    (split? start t).bind fun x => (split? (stop - start) x.2).map fun y => y.1
  else none

/-- What is behind a boundary. -/
def behind? (n : Nat) (t : Text) : Option Text := (split? n t).map fun x => x.2

variable {n start stop : Nat} {t w front back : Text}

theorem split?_append (front back : Text) :
    split? front.utf8Size (front ++ back) = some (front, back) := by
  induction front with
  | nil => simp [split?]
  | cons c front ih =>
    have hc : 0 < c.utf8Size := c.utf8Size_pos
    obtain ⟨m, hm⟩ : ∃ m, c.utf8Size + Text.utf8Size front = m + 1 :=
      ⟨c.utf8Size + Text.utf8Size front - 1, by omega⟩
    have hrest : m + 1 - c.utf8Size = Text.utf8Size front := by omega
    rw [utf8Size_cons, hm, List.cons_append, split?, if_pos (by omega), hrest, ih]
    rfl

/-- A split at a boundary loses nothing, and nowhere else is there one. -/
theorem split?_eq_some :
    split? n t = some (front, back) ↔ t = front ++ back ∧ front.utf8Size = n := by
  constructor
  · intro h
    induction t generalizing n front with
    | nil =>
      cases n with
      | zero =>
        cases h
        exact ⟨rfl, rfl⟩
      | succ n => cases h
    | cons c t ih =>
      cases n with
      | zero =>
        cases h
        exact ⟨rfl, rfl⟩
      | succ n =>
        rw [split?] at h
        split at h
        · rename_i hle
          obtain ⟨⟨s, r⟩, hsplit, heq⟩ := Option.map_eq_some_iff.1 h
          cases heq
          obtain ⟨rfl, hsize⟩ := ih hsplit
          refine ⟨rfl, ?_⟩
          rw [utf8Size_cons, hsize]
          omega
        · cases h
  · rintro ⟨rfl, rfl⟩
    exact split?_append front back

theorem behind?_eq_some :
    behind? n t = some back ↔ ∃ front, t = front ++ back ∧ front.utf8Size = n := by
  rw [behind?, Option.map_eq_some_iff]
  constructor
  · rintro ⟨⟨front, _⟩, h, rfl⟩
    exact ⟨front, split?_eq_some.1 h⟩
  · rintro ⟨front, h⟩
    exact ⟨(front, back), split?_eq_some.2 h, rfl⟩

/-- What is cut out is what stands between two boundaries. -/
theorem cut?_eq_some : cut? start stop t = some w ↔ (Span.mk start stop).Cuts t w := by
  rw [cut?]
  constructor
  · intro h
    split at h
    · obtain ⟨⟨front, rest⟩, hfront, hrest⟩ := Option.bind_eq_some_iff.1 h
      obtain ⟨⟨s, back⟩, hsplit, rfl⟩ := Option.map_eq_some_iff.1 hrest
      obtain ⟨rfl, hstart⟩ := split?_eq_some.1 hfront
      obtain ⟨rfl, hsize⟩ := split?_eq_some.1 hsplit
      refine ⟨front, back, by simp, ?_⟩
      simp only [Slice.span, Slice.stop, Span.mk.injEq]
      omega
    · cases h
  · rintro ⟨front, back, rfl, hspan⟩
    simp only [Slice.span, Slice.stop, Span.mk.injEq] at hspan
    obtain ⟨rfl, rfl⟩ := hspan
    rw [if_pos (Nat.le_add_right _ _), List.append_assoc, split?_append, Option.bind_some,
      Nat.add_sub_cancel_left, split?_append]
    rfl

theorem behind?_append (front back : Text) :
    behind? front.utf8Size (front ++ back) = some back :=
  behind?_eq_some.2 ⟨front, rfl, rfl⟩

theorem cut?_append (front w back : Text) :
    cut? front.utf8Size (front ++ w).utf8Size (front ++ w ++ back) = some w :=
  cut?_eq_some.2 ⟨front, back, rfl, by rw [utf8Size_append]; rfl⟩

theorem bounds_iff_behind? : Bounds t n ↔ ∃ back, behind? n t = some back := by
  simp only [behind?_eq_some, Bounds]
  exact exists_comm

/-- **Two places cut something out of a text if they are in order and both are boundaries**, and
only then. -/
theorem isSome_cut? :
    (cut? start stop t).isSome = true ↔ start ≤ stop ∧ Bounds t start ∧ Bounds t stop := by
  rw [Option.isSome_iff_exists]
  constructor
  · rintro ⟨w, h⟩
    have hcuts := cut?_eq_some.1 h
    have hbounds := hcuts.bounds
    obtain ⟨front, back, rfl, hspan⟩ := hcuts
    obtain ⟨rfl, rfl⟩ := Span.mk.inj hspan
    exact ⟨Nat.le_add_right _ _, ⟨front, w ++ back, by simp, rfl⟩, hbounds⟩
  · rintro ⟨hle, ⟨front, back, rfl, rfl⟩, front', back', happ, rfl⟩
    -- the shorter front is the beginning of the longer one
    obtain ⟨w, rfl, rfl⟩ : ∃ w, front' = front ++ w ∧ back = w ++ back' := by
      rcases List.append_eq_append_iff.1 happ with ⟨w, rfl, rfl⟩ | ⟨w, rfl, rfl⟩
      · exact ⟨w, rfl, rfl⟩
      · rw [utf8Size_append] at hle
        cases w with
        | nil => exact ⟨[], by simp, by simp⟩
        | cons c w =>
          have hc : 0 < c.utf8Size := c.utf8Size_pos
          rw [utf8Size_cons] at hle
          omega
    refine ⟨w, cut?_eq_some.2 ⟨front, back', by simp, ?_⟩⟩
    simp [Slice.span, Slice.stop]

/-! ## Finding by bytes -/

/-- The place of the first character of a class. -/
def placeOf? (p : Char → Bool) : Text → Option Nat
  | [] => none
  | c :: t => if p c then some 0 else (placeOf? p t).map (c.utf8Size + ·)

variable {p : Char → Bool}

theorem placeOf?_eq_none (h : ∀ c ∈ t, p c = false) : placeOf? p t = none := by
  induction t with
  | nil => rfl
  | cons c t ih =>
    obtain ⟨hc, ht⟩ := List.forall_mem_cons.1 h
    rw [placeOf?, ih ht, hc]
    rfl

theorem placeOf?_append {c : Char} (h : ∀ d ∈ front, p d = false) (hc : p c = true) (back : Text) :
    placeOf? p (front ++ c :: back) = some front.utf8Size := by
  induction front with
  | nil => simp [placeOf?, hc]
  | cons d front ih =>
    obtain ⟨hd, hfront⟩ := List.forall_mem_cons.1 h
    rw [List.cons_append, placeOf?, ih hfront, hd]
    rfl

/-- A text has no character of the class, or is cut in two by the first one. -/
theorem forall_or_exists_first (p : Char → Bool) (t : Text) :
    (∀ c ∈ t, p c = false) ∨
      ∃ front c back, t = front ++ c :: back ∧ (∀ d ∈ front, p d = false) ∧ p c = true := by
  induction t with
  | nil => exact .inl (by simp)
  | cons c t ih =>
    cases hc : p c with
    | true => exact .inr ⟨[], c, t, rfl, by simp, hc⟩
    | false =>
      rcases ih with hall | ⟨front, d, back, rfl, hfront, hd⟩
      · exact .inl (List.forall_mem_cons.2 ⟨hc, hall⟩)
      · exact .inr ⟨c :: front, d, back, rfl, List.forall_mem_cons.2 ⟨hc, hfront⟩, hd⟩

/-- A text is cut in two before its first character of a class; without one all of it is in
front. -/
theorem split?_placeOf? (p : Char → Bool) (t : Text) :
    split? ((placeOf? p t).getD t.utf8Size) t =
      some (t.takeWhile (fun c => !p c), t.dropWhile fun c => !p c) := by
  rcases forall_or_exists_first p t with hno | ⟨front, c, back, rfl, hfront, hc⟩
  · have hall : ∀ c ∈ t, (!p c) = true := fun c hc => by rw [hno c hc]; rfl
    rw [placeOf?_eq_none hno, List.takeWhile_eq_self_iff.2 hall, List.dropWhile_eq_nil_iff.2 hall]
    exact split?_eq_some.2 ⟨(List.append_nil t).symm, rfl⟩
  · have hall : ∀ c ∈ front, (!p c) = true := fun c hc => by rw [hfront c hc]; rfl
    rw [placeOf?_append hfront hc, List.takeWhile_append_of_pos hall,
      List.dropWhile_append_of_pos hall, List.takeWhile_cons_of_neg (by simp [hc]),
      List.dropWhile_cons_of_neg (by simp [hc]), List.append_nil]
    exact split?_append front (c :: back)

end Text

end RichContent
