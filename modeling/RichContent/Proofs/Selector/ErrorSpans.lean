/-
Where the errors of selectors point in the text that was given.

A selector is read without the white space around it, and the places of an
error are those of the text that is read. White space behind it makes no
difference to them. With white space in front they are too small by its bytes:
moved on by so many, every span is that of what is wrong (`fits_moved`), and as
it is, the span of a token is that of the token only if there is no white space
in front (`fits_iff`). It may then even begin or end inside a character.
-/
import RichContent.Proofs.Selector.Obstacles
import RichContent.Proofs.Text.Boundary

namespace RichContent

open Text

/-! ## Places in a text -/

namespace Text

/-- The white space in front of the text. -/
def leading (t : Text) : Text := t.takeWhile isWhiteSpace

theorem exists_eq_leading_append (t : Text) : ∃ trailing, t = leading t ++ trim t ++ trailing := by
  refine ⟨((t.dropWhile isWhiteSpace).reverse.takeWhile isWhiteSpace).reverse, ?_⟩
  rw [List.append_assoc, trim, trimEnd, trimEndWhere, ← List.reverse_append,
    List.takeWhile_append_dropWhile, List.reverse_reverse, leading,
    List.takeWhile_append_dropWhile]

end Text

namespace Span

/-- The span so many bytes further on. -/
def moved (n : Nat) (span : Span) : Span := ⟨n + span.start, n + span.stop⟩

variable {span : Span} {t w : Text}

theorem Cuts.moved (h : span.Cuts t w) (u v : Text) :
    (span.moved u.utf8Size).Cuts (u ++ t ++ v) w := by
  obtain ⟨front, back, rfl, rfl⟩ := h
  refine ⟨u ++ front, back ++ v, by simp, ?_⟩
  simp [Span.moved, Slice.span, Nat.add_assoc]

end Span

namespace Token

/-- The token with its place, so many bytes further on. -/
def Placed.moved (n : Nat) (x : Placed) : Placed := ⟨⟨n + x.slice.start, x.slice.text⟩, x.token⟩

@[simp] theorem Placed.token_moved (n : Nat) (x : Placed) : (x.moved n).token = x.token := rfl

@[simp] theorem Placed.text_moved (n : Nat) (x : Placed) :
    (x.moved n).slice.text = x.slice.text := rfl

theorem Placed.span_moved (n : Nat) (x : Placed) :
    (x.moved n).slice.span = x.slice.span.moved n := by
  simp [Placed.moved, Slice.span, Span.moved, Slice.stop, Nat.add_assoc]

theorem all_moved (n start : Nat) (t : Text) :
    all (n + start) t = (all start t).map (·.moved n) := by
  induction start, t using all.induct with
  | case1 start => rw [all, all, List.map_nil]
  | case2 start c rest ih =>
    rw [all, all, List.map_cons, ← ih, Nat.add_assoc]
    rfl

/-- A token of a text is what its span cuts out of the text. -/
theorem cuts_of_all {t : Text} {before after : List Placed} {x : Placed}
    (h : all 0 t = before ++ x :: after) :
    x.slice.span.Cuts t x.slice.text ∧ x.token.Spelled x.slice.text := by
  obtain ⟨front, back, rfl, -, hback, -⟩ := exists_of_all_eq_append h
  cases back with
  | nil =>
    rw [all] at hback
    cases hback
  | cons c rest =>
    rw [all, Nat.zero_add] at hback
    obtain ⟨rfl, -⟩ := List.cons.inj hback
    refine ⟨⟨front, (next c rest).after, ?_, rfl⟩, spelled_next c rest⟩
    rw [List.append_assoc, next_append]

end Token

namespace Selector

/-! ## The token that is in the way -/

theorem Viable.of_append {tokens more : List Token} (h : Viable (tokens ++ more)) :
    Viable tokens := by
  obtain ⟨u, l, hparse, hprefix⟩ := h
  exact ⟨u, l, hparse, (List.prefix_append tokens more).trans hprefix⟩

/-- The first token, at its place in the whole text, with which the tokens begin no selector. -/
def StopsAt (t : Text) (x : Token.Placed) : Prop :=
  ∃ before after, Token.all (leading t).utf8Size (trim t) = before ++ x :: after ∧
    Viable (before.map (·.token)) ∧ ¬ Viable (before.map (·.token) ++ [x.token])

variable {t : Text} {e : Error}

/-- Only one token is the first with which they begin none. -/
theorem StopsAt.unique {x y : Token.Placed} (hx : StopsAt t x) (hy : StopsAt t y) : x = y := by
  obtain ⟨before, after, hall, hviable, hstops⟩ := hx
  obtain ⟨before', after', hall', hviable', hstops'⟩ := hy
  -- if one stood before the other, the tokens before the other would begin no selector
  have not_viable {before between : List Token.Placed} {x : Token.Placed}
      (hstops : ¬ Viable (before.map (·.token) ++ [x.token])) :
      ¬ Viable ((before ++ x :: between).map (·.token)) := by
    intro h
    rw [List.map_append, List.map_cons, List.append_cons] at h
    exact hstops h.of_append
  rcases List.append_eq_append_iff.1 (hall.symm.trans hall') with ⟨between, rfl, h⟩ | ⟨between, rfl, h⟩
  · cases between with
    | nil => exact (List.cons.inj h).1
    | cons z between =>
      obtain rfl : x = z := (List.cons.inj h).1
      exact absurd hviable' (not_viable hstops)
  · cases between with
    | nil => exact (List.cons.inj h).1.symm
    | cons z between =>
      obtain rfl : y = z := (List.cons.inj h).1
      exact absurd hviable (not_viable hstops')

theorem StopsAt.cuts {x : Token.Placed} (h : StopsAt t x) :
    x.slice.span.Cuts t x.slice.text ∧ x.token.Spelled x.slice.text := by
  obtain ⟨before, after, hall, -, -⟩ := h
  obtain ⟨trailing, ht⟩ := exists_eq_leading_append t
  rw [← Nat.add_zero (leading t).utf8Size, Token.all_moved] at hall
  obtain ⟨l, l', hread, -, hl'⟩ := List.map_eq_append_iff.1 hall
  obtain ⟨y, l', rfl, rfl, -⟩ := List.map_eq_cons_iff.1 hl'
  obtain ⟨hcuts, hspelled⟩ := Token.cuts_of_all hread
  have hmoved := hcuts.moved (leading t) trailing
  rw [← ht, ← Token.Placed.span_moved] at hmoved
  exact ⟨hmoved, hspelled⟩

/-! ## Errors in the text that is read -/

/-- The error so many bytes further on. -/
def Error.moved (n : Nat) (e : Error) : Error := { e with span := e.span.moved n }

theorem Draft.BeginsBehind.bounds {origin : Option Nat} {before after : List Token.Placed}
    (h : BeginsBehind origin before) (hall : Token.all 0 t = before ++ after) :
    ∀ n, origin = some n → Bounds t n := by
  obtain ⟨front, back, rfl, -, -, hstop⟩ := Token.exists_of_all_eq_append hall
  cases h with
  | nothing => simp
  | separator =>
    rintro n ⟨⟩
    exact ⟨front, back, rfl, by simpa using (hstop _ List.getLast?_concat).symm⟩

/-- No token is in the way, and the span is empty or begins where the text does. -/
structure Error.AtLarge (t : Text) (e : Error) : Prop where
  token : ∀ token, e.obstacle ≠ .unexpected token
  stop : Bounds t e.span.stop
  start : e.span.start = 0 ∨ e.span.start = e.span.stop

theorem Error.AtLarge.exists_cuts (h : e.AtLarge t) : ∃ w, e.span.Cuts t w := by
  obtain ⟨-, hstop, hstart⟩ := h
  obtain ⟨⟨start, stop⟩, obstacle, expected⟩ := e
  simp only at hstop hstart ⊢
  rcases hstart with rfl | rfl
  · exact Span.cuts_of_start_eq_zero hstop
  · exact ⟨[], Span.cuts_empty hstop⟩

/-- Where a compound is yet to begin, the error is one of the whole text or stands behind a
separator. -/
theorem Draft.Traces.error_atLarge {d : Draft} {before after : List Token.Placed}
    (h : d.Traces before) (hd : d.current = ⟨none, []⟩) (hall : Token.all 0 t = before ++ after)
    (obstacle : Obstacle) (span : Span) : (d.error t.utf8Size obstacle span).AtLarge t := by
  obtain ⟨behind, inside, rfl, hbehind, -, -⟩ := h.begun hd
  rw [List.append_assoc] at hall
  have hbounds := hbehind.bounds hall
  rw [Draft.error, if_pos hd]
  generalize d.origin = origin at hbounds
  cases origin with
  | none => exact ⟨by simp, ⟨t, [], by simp, rfl⟩, .inl rfl⟩
  | some n => exact ⟨by simp, hbounds n rfl, .inr rfl⟩

/-- In the text that is read, the span of an error is that of the token that is in the way, or is
empty, or begins where the text does. -/
theorem places_of_error (h : parse t = .error e) :
    (∃ before x after, Token.all 0 (trim t) = before ++ x :: after ∧
      Viable (before.map (·.token)) ∧ ¬ Viable (before.map (·.token) ++ [x.token]) ∧
      e.obstacle = .unexpected x.token ∧ e.span = x.slice.span) ∨
    e.AtLarge (trim t) := by
  rw [parse] at h
  obtain ⟨before, d, hread, hcases⟩ := Draft.exists_of_read_error h
  have htraces : d.Traces before := Draft.traces_empty.readTo hread
  by_cases hd : d.current = ⟨none, []⟩
  · right
    rcases hcases with ⟨hall, -, rfl⟩ | ⟨x, after, hall, -, rfl⟩
    · exact htraces.error_atLarge hd (by rw [hall, List.append_nil]) _ _
    · exact htraces.error_atLarge hd hall _ _
  rcases hcases with ⟨hall, -, rfl⟩ | ⟨x, after, hall, hnext, rfl⟩
  · rw [Draft.error, if_neg hd]
    exact .inr ⟨by simp, ⟨trim t, [], by simp, rfl⟩, .inr rfl⟩
  · obtain ⟨_, _, -, hspelled, -, -⟩ := Token.exists_of_all_eq_append hall
    rw [Draft.error, if_neg hd]
    exact .inl ⟨before, x, after, hall, (viable_iff hspelled).2 ⟨_, htraces.run⟩,
      not_viable_concat htraces.run hnext, rfl, rfl⟩

/-! ## Errors in the text that was given -/

/-- The span of an error is right for the text: if a token is in the way it cuts that one out, and
in any case it begins and ends where characters do. -/
structure Error.Fits (t : Text) (e : Error) : Prop where
  token : ∀ token, e.obstacle = .unexpected token → ∃ x, StopsAt t x ∧ x.token = token ∧
    token.Spelled x.slice.text ∧ e.span = x.slice.span ∧ e.span.Cuts t x.slice.text
  within : ∃ w, e.span.Cuts t w

theorem stopsAt_moved {before after : List Token.Placed} {x : Token.Placed}
    (hall : Token.all 0 (trim t) = before ++ x :: after) (hviable : Viable (before.map (·.token)))
    (hstops : ¬ Viable (before.map (·.token) ++ [x.token])) :
    StopsAt t (x.moved (leading t).utf8Size) := by
  have hmap : (before.map (·.moved (leading t).utf8Size)).map (·.token) = before.map (·.token) := by
    rw [List.map_map]
    rfl
  refine ⟨before.map (·.moved (leading t).utf8Size), after.map (·.moved (leading t).utf8Size), ?_, ?_⟩
  · rw [← Nat.add_zero (leading t).utf8Size, Token.all_moved, hall]
    simp
  · rw [hmap]
    exact ⟨hviable, hstops⟩

theorem fits_moved (h : parse t = .error e) : (e.moved (leading t).utf8Size).Fits t := by
  obtain ⟨trailing, ht⟩ := exists_eq_leading_append t
  rcases places_of_error h with ⟨before, x, after, hall, hviable, hstops, hobstacle, hspan⟩ | hlarge
  · have hx := stopsAt_moved hall hviable hstops
    obtain ⟨hcuts, hspelled⟩ := hx.cuts
    have hmoved : (e.moved (leading t).utf8Size).span = (x.moved (leading t).utf8Size).slice.span := by
      rw [Token.Placed.span_moved, ← hspan]
      rfl
    refine ⟨?_, _, hmoved ▸ hcuts⟩
    intro token htoken
    have heq : x.token = token := by
      have hunexpected : e.obstacle = .unexpected token := htoken
      rw [hobstacle] at hunexpected
      exact Obstacle.unexpected.inj hunexpected
    exact ⟨_, hx, heq, heq ▸ hspelled, hmoved, hmoved ▸ hcuts⟩
  · refine ⟨fun token heq => absurd heq (hlarge.token token), ?_⟩
    obtain ⟨w, hw⟩ := hlarge.exists_cuts
    have hmoved := hw.moved (leading t) trailing
    rw [← ht] at hmoved
    exact ⟨w, hmoved⟩

/-- As it is, the span of a token is right only without white space in front, and any other span
where its end is one of a character. -/
theorem fits_iff (h : parse t = .error e) :
    e.Fits t ↔ leading t = [] ∨
      (∀ token, e.obstacle ≠ .unexpected token) ∧ Bounds t e.span.stop := by
  constructor
  · intro hfits
    obtain ⟨w, hw⟩ := hfits.within
    rcases places_of_error h with ⟨before, x, after, hall, hviable, hstops, hobstacle, hspan⟩ | hlarge
    · left
      obtain ⟨y, hy, -, -, hspan', -⟩ := hfits.token x.token hobstacle
      rw [hy.unique (stopsAt_moved hall hviable hstops), Token.Placed.span_moved, hspan] at hspan'
      have hstart := congrArg Span.start hspan'
      by_contra hne
      have hpos := utf8Size_pos hne
      simp only [Span.moved] at hstart
      omega
    · exact .inr ⟨hlarge.token, hw.bounds⟩
  · rintro (hnil | ⟨htoken, hstop⟩)
    · have hfits := fits_moved h
      have hsame : e.moved (leading t).utf8Size = e := by
        simp [hnil, Error.moved, Span.moved]
      rwa [hsame] at hfits
    · rcases places_of_error h with ⟨_, x, _, _, _, _, hobstacle, _⟩ | ⟨-, -, hstart⟩
      · exact absurd hobstacle (htoken x.token)
      · have hlarge : e.AtLarge t := ⟨htoken, hstop, hstart⟩
        exact ⟨fun token heq => absurd heq (htoken token), hlarge.exists_cuts⟩

theorem within_of_error (h : parse t = .error e) :
    e.span.start ≤ e.span.stop ∧ e.span.stop ≤ t.utf8Size := by
  obtain ⟨w, hw⟩ := (fits_moved h).within
  obtain ⟨hle, hstop⟩ := hw.within
  simp only [Error.moved, Span.moved] at hle hstop
  omega

/-- **Moved on by the white space in front of the selector, the span of an error is right for the
text that was given; as it is, it is so exactly without such white space,** or where no token is in
the way and the span happens to end with a character. It never ends behind the text. -/
theorem parse_error_fits (h : parse t = .error e) :
    (e.moved (leading t).utf8Size).Fits t ∧
    (e.Fits t ↔ leading t = [] ∨
      (∀ token, e.obstacle ≠ .unexpected token) ∧ Bounds t e.span.stop) ∧
    e.span.start ≤ e.span.stop ∧ e.span.stop ≤ t.utf8Size :=
  ⟨fits_moved h, fits_iff h, within_of_error h⟩

/-- A character that is no name behind an `=`, in a selector with white space in front that is not
ASCII. -/
theorem parse_error_fits_value :
    let t := "\u00a0 img[alt=é]".toList
    let e : Error := ⟨⟨8, 10⟩, .unexpected (.invalid 'é'), [.token .space]⟩
    parse t = .error e ∧ (e.moved 3).Fits t ∧ ¬ e.Fits t ∧ e.span.stop ≤ utf8Size t := by
  intro t e
  have h : parse t = .error e := by decide +kernel
  obtain ⟨hmoved, hiff, -, hstop⟩ := parse_error_fits h
  refine ⟨h, hmoved, ?_, hstop⟩
  rw [hiff]
  rintro (hnil | ⟨htoken, -⟩)
  · cases hnil
  · exact htoken _ rfl

/-- With a blank in front the span of `:` cuts out the `a` before it, and that of `é` ends inside
it. -/
theorem not_fits_of_leading :
    (let t := " a:hover".toList
      let e : Error := ⟨⟨1, 2⟩, .unexpected (.invalid ':'), Place.item.expected⟩
      parse t = .error e ∧ e.span.Cuts t ['a'] ∧ ¬ e.Fits t) ∧
    (let t := " aé".toList
      let e : Error := ⟨⟨1, 3⟩, .unexpected (.invalid 'é'), Place.item.expected⟩
      parse t = .error e ∧ ¬ ∃ w, e.span.Cuts t w) := by
  refine ⟨?_, ?_⟩
  · intro t e
    have h : parse t = .error e := by decide +kernel
    refine ⟨h, ⟨[' '], ":hover".toList, rfl, rfl⟩, ?_⟩
    rw [fits_iff h]
    rintro (hnil | ⟨htoken, -⟩)
    · cases hnil
    · exact htoken _ rfl
  · intro t e
    refine ⟨by decide +kernel, ?_⟩
    rintro ⟨w, hw⟩
    obtain ⟨front, back, ht, hsize⟩ := hw.bounds
    have hprefix : front <+: t := ⟨back, ht.symm⟩
    have hlength : front.length < 4 := Nat.lt_succ_of_le hprefix.length_le
    have hnone : ∀ n < 4, utf8Size (t.take n) ≠ 3 := by decide
    rw [List.prefix_iff_eq_take.1 hprefix] at hsize
    exact hnone _ hlength hsize

end Selector

end RichContent
