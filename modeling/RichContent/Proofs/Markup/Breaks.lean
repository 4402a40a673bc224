/-
Markup in which line breaks have been marked, lexed again.

A mark is a tag of its own, and what is around it is lexed as before where that
is text or a comment. Elsewhere its `<` breaks a start tag off and its `>` ends
a tag too early. `Lexeme.sparesTags` says where line breaks have to be for the start
tags to stay as they were (`Lexeme.otherTags_breaking`).
-/
import RichContent.Proofs.Markup.Patch
import RichContent.Proofs.Text.Lines

namespace RichContent

/-! ## Line breaks with marks -/

namespace Text

/-- A carriage return or a line feed. -/
def isLineBreak (c : Char) : Bool := c == '\r' || c == '\n'

/-- The second text is the first with marks before some of its line breaks. -/
inductive Breaking : Text → Text → Prop
  | nil : Breaking [] []
  | keep {c : Char} {t t' : Text} : Breaking t t' → Breaking (c :: t) (c :: t')
  | mark {c : Char} {t t' : Text} :
    isLineBreak c = true → Breaking t t' → Breaking (c :: t) (breakMark ++ c :: t')

theorem breaking_markBreaks (t : Text) : Breaking t (markBreaks t) := by
  fun_induction markBreaks t with
  | case1 => exact .nil
  | case2 rest ih => exact .mark rfl (.keep ih)
  | case3 c rest _ hc ih => exact .mark (by simpa [isLineBreak] using hc) ih
  | case4 c rest _ _ ih => exact .keep ih

namespace Breaking

variable {c : Char} {s s' t t' : Text}

theorem of_nil (h : Breaking [] t') : t' = [] := by
  cases h
  rfl

/-- What is no line break is kept. -/
theorem of_cons (h : Breaking (c :: t) t') (hc : isLineBreak c = false) :
    ∃ t'', t' = c :: t'' ∧ Breaking t t'' := by
  cases h with
  | keep h => exact ⟨_, rfl, h⟩
  | mark hbreak h =>
    rw [hc] at hbreak
    cases hbreak

/-- What does not begin with a `<` begins with what has been there. -/
theorem of_cons_right (h : Breaking t (c :: t')) (hc : c ≠ '<') :
    ∃ t'', t = c :: t'' ∧ Breaking t'' t' := by
  generalize heq : c :: t' = u at h
  cases h with
  | nil => cases heq
  | keep h =>
    cases heq
    exact ⟨_, rfl, h⟩
  | mark hbreak h => exact absurd (List.cons.inj heq).1 hc

theorem of_append {u : Text} (h : Breaking (s ++ t) u) :
    ∃ s' t', u = s' ++ t' ∧ Breaking s s' ∧ Breaking t t' := by
  induction s generalizing u with
  | nil => exact ⟨[], u, rfl, .nil, h⟩
  | cons c s ih =>
    cases h with
    | keep h =>
      obtain ⟨s', t', rfl, hs, ht⟩ := ih h
      exact ⟨c :: s', t', rfl, .keep hs, ht⟩
    | mark hbreak h =>
      obtain ⟨s', t', rfl, hs, ht⟩ := ih h
      exact ⟨breakMark ++ c :: s', t', by simp, .mark hbreak hs, ht⟩

/-- Up to the first mark nothing is changed. -/
theorem eq_or_marked (h : Breaking t t') : t' = t ∨ ∃ u c v v', t = u ++ c :: v ∧
    isLineBreak c = true ∧ t' = u ++ (breakMark ++ c :: v') ∧ Breaking v v' := by
  induction h with
  | nil => exact .inl rfl
  | @keep c t t' _ ih =>
    rcases ih with rfl | ⟨u, d, v, v', rfl, hd, rfl, hv⟩
    · exact .inl rfl
    · exact .inr ⟨c :: u, d, v, v', rfl, hd, rfl, hv⟩
  | @mark c t t' hbreak h => exact .inr ⟨[], c, t, t', rfl, hbreak, rfl, h⟩

theorem eq_of_no_break (h : Breaking t t') (ht : ∀ c ∈ t, isLineBreak c = false) : t' = t := by
  rcases h.eq_or_marked with heq | ⟨u, c, v, v', rfl, hc, -, -⟩
  · exact heq
  · rw [ht c (by simp)] at hc
    cases hc

end Breaking

/-! ## Comments -/

theorem cutAt_cons_of_not {piece t : Text} {c : Char} (h : ¬ piece <+: c :: t) :
    cutAt piece (c :: t) = (cutAt piece t).map fun x => (c :: x.1, x.2) := by
  rw [cutAt, after?_eq_none.2 h]

theorem cutAt_append_of_ne {w : Text} (h : ∀ c ∈ w, c ≠ '-') (t : Text) :
    cutAt "-->".toList (w ++ t) = (cutAt "-->".toList t).map fun x => (w ++ x.1, x.2) := by
  induction w with
  | nil => simp
  | cons c w ih =>
    obtain ⟨hc, hw⟩ := List.forall_mem_cons.1 h
    have hno : ¬ "-->".toList <+: c :: (w ++ t) := by
      rintro ⟨rest, heq⟩
      exact hc (List.cons.inj heq).1.symm
    rw [List.cons_append, cutAt_cons_of_not hno, ih hw, Option.map_map]
    rfl

/-- Cut at the same place: behind it there is the same, but for marks. -/
def CutAlike : Option (Text × Text) → Option (Text × Text) → Prop :=
  Option.Rel fun x x' => Breaking x.2 x'.2

theorem CutAlike.map {x x' : Option (Text × Text)} (h : CutAlike x x') (f f' : Text → Text) :
    CutAlike (x.map fun y => (f y.1, y.2)) (x'.map fun y => (f' y.1, y.2)) := by
  cases h with
  | some h => exact .some h
  | none => exact .none

namespace Breaking

variable {c : Char} {t t' : Text}

/-- A mark is not in the end of a comment. -/
theorem starts_arrow (h : Breaking t t') :
    "-->".toList <+: c :: t' → "-->".toList <+: c :: t := by
  rintro ⟨r, heq⟩
  obtain ⟨rfl, rfl⟩ : '-' = c ∧ '-' :: '>' :: r = t' := List.cons.inj heq
  obtain ⟨t₁, rfl, h₁⟩ := h.of_cons_right (by decide)
  obtain ⟨t₂, rfl, -⟩ := h₁.of_cons_right (by decide)
  exact ⟨t₂, rfl⟩

/-- A comment ends where it did. -/
theorem cutAt (h : Breaking t t') :
    CutAlike (Text.cutAt "-->".toList t) (Text.cutAt "-->".toList t') := by
  induction h with
  | nil => exact .none
  | @keep c t t' h ih =>
    by_cases hstart : "-->".toList <+: c :: t
    · obtain ⟨r, heq⟩ := hstart
      obtain ⟨rfl, rfl⟩ : '-' = c ∧ '-' :: '>' :: r = t := List.cons.inj heq
      obtain ⟨t₁, rfl, h₁⟩ := h.of_cons (by decide)
      obtain ⟨r', rfl, hr⟩ := h₁.of_cons (by decide)
      have hcut (r : Text) : Text.cutAt "-->".toList ('-' :: '-' :: '>' :: r) = some ([], r) := by
        have harrow : '-' :: '-' :: '>' :: r = "-->".toList ++ r := rfl
        rw [Text.cutAt, after?_eq_some.2 harrow]
      rw [hcut, hcut]
      exact .some hr
    · rw [cutAt_cons_of_not hstart, cutAt_cons_of_not (mt h.starts_arrow hstart)]
      exact ih.map _ _
  | @mark c t t' hbreak h ih =>
    have hsingle : ∀ d ∈ [c], d ≠ '-' := by
      refine List.forall_mem_singleton.2 ?_
      rintro rfl
      cases hbreak
    have hmark : ∀ d ∈ breakMark ++ [c], d ≠ '-' := by
      refine List.forall_mem_append.2 ⟨fun d hd => ?_, hsingle⟩
      rintro rfl
      exact absurd hd (by decide)
    have happ : breakMark ++ c :: t' = breakMark ++ [c] ++ t' := by simp
    rw [happ, ← List.singleton_append, cutAt_append_of_ne hsingle, cutAt_append_of_ne hmark]
    exact ih.map _ _

end Breaking

end Text

open Text

namespace Lexeme

/-! ## The end of a start tag -/

/-- Is every line break that a scan for the end of a tag comes upon inside of a quoted value? -/
def breaksInValues (quote : Option Char) (afterEquals : Bool) : Text → Bool
  | [] => true
  | c :: t =>
    (quote.isSome || !isLineBreak c) &&
      match scanStep quote afterEquals c with
      | some (quote', afterEquals') => breaksInValues quote' afterEquals' t
      | none => true

section

variable {quote : Option Char} {b : Bool} {t t' : Text}

/-- The quote of a value is one. -/
theorem scanStep_isQuote {quote' : Option Char} {b' : Bool} {c : Char}
    (hq : ∀ q ∈ quote, isQuote q = true) (h : scanStep quote b c = some (quote', b')) :
    ∀ q ∈ quote', isQuote q = true := by
  cases quote with
  | some q =>
    simp only [scanStep] at h
    split at h
    · cases h
      simp
    · cases h
      exact hq
  | none =>
    simp only [scanStep] at h
    split at h
    · rename_i hopen
      cases h
      rcases hopen.1 with rfl | rfl <;> simp [isQuote]
    · split at h
      · cases h
      · cases h
        simp

/-- Inside of a value a mark means nothing. -/
theorem scanTag_mark {q : Char} (hq : isQuote q = true) (b : Bool) (t : Text) :
    scanTag (some q) b (breakMark ++ t) = (scanTag (some q) b t).behind breakMark := by
  have hmark : ∀ c ∈ breakMark, isQuote c = false := List.all_iff_forall_prop.1 (by decide)
  generalize breakMark = w at hmark
  induction w with
  | nil => rfl
  | cons c w ih =>
    obtain ⟨hc, hw⟩ := List.forall_mem_cons.1 hmark
    have hne : c ≠ q := by
      rintro rfl
      rw [hc] at hq
      cases hq
    rw [List.cons_append, scanTag, TagEnd.behind_cons, ← ih hw]
    exact if_neg hne

/-- A scan that comes upon a mark outside of a value is broken off there, and one that has not
closed the tag does not close it with marks. -/
theorem scanTag_breaking (h : Breaking t t') (hq : ∀ q ∈ quote, isQuote q = true) :
    (scanTag quote b t = .broken → scanTag quote b t' = .broken) ∧
      (scanTag quote b t = .ranOut → scanTag quote b t' = .broken ∨ scanTag quote b t' = .ranOut) ∧
      (scanTag quote b t = .ranOut → breaksInValues quote b t = true →
        scanTag quote b t' = .ranOut) := by
  induction h generalizing quote b with
  | nil => exact ⟨id, .inr, fun h _ => h⟩
  | @keep c t t' _ ih =>
    rw [scanTag_cons, scanTag_cons, breaksInValues]
    cases hstep : scanStep quote b c with
    | some next =>
      obtain ⟨quote', b'⟩ := next
      obtain ⟨hbroken, hout, hvalues⟩ := ih (b := b') (scanStep_isQuote hq hstep)
      simp only [TagEnd.cons_eq_broken, TagEnd.cons_eq_ranOut]
      exact ⟨hbroken, hout, fun h hall => hvalues h (Bool.and_eq_true_iff.1 hall).2⟩
    | none =>
      by_cases hc : c = '>' <;> simp [hc]
  | @mark c t t' hbreak _ ih =>
    cases quote with
    | none =>
      have hless : scanTag none b (breakMark ++ c :: t') = .broken := by simp [breakMark, scanTag]
      refine ⟨fun _ => hless, fun _ => .inl hless, fun _ hall => ?_⟩
      rw [breaksInValues, hbreak] at hall
      cases hall
    | some q =>
      have hstep : scanStep (some q) b c = some (some q, b) := by
        have hc : c ≠ q := by
          rintro rfl
          rcases eq_of_isQuote (hq c rfl) with rfl | rfl <;> exact absurd hbreak (by decide)
        simp [scanStep, hc]
      obtain ⟨hbroken, hout, hvalues⟩ := ih (b := b) hq
      rw [scanTag_mark (hq q rfl), scanTag_cons, scanTag_cons, breaksInValues, hstep]
      simp only [TagEnd.behind_eq_broken, TagEnd.behind_eq_ranOut, TagEnd.cons_eq_broken,
        TagEnd.cons_eq_ranOut]
      exact ⟨hbroken, hout, fun h hall => hvalues h (Bool.and_eq_true_iff.1 hall).2⟩

theorem cutPlainTag_eq_none (h : Breaking t t') (hcut : cutPlainTag t = none) :
    cutPlainTag t' = none := by
  induction h with
  | nil => rfl
  | @keep c t t' _ ih =>
    rw [cutPlainTag] at hcut ⊢
    split at hcut
    · cases hcut
    · rename_i hgreater
      rw [if_neg hgreater]
      split at hcut
      · rename_i hless
        rw [if_pos hless]
      · rename_i hless
        rw [if_neg hless, ih (Option.map_eq_none_iff.1 hcut)]
        rfl
  | mark => rfl

theorem cutPlainTag_behind {rest after : Text} (h : cutPlainTag t = some (rest, after)) (x : Text) :
    cutPlainTag (rest ++ x) = some (rest, x) := by
  induction t generalizing rest with
  | nil => cases h
  | cons c t ih =>
    rw [cutPlainTag] at h
    split at h
    · rename_i hc
      cases h
      simp [cutPlainTag]
    · rename_i hgreater
      split at h
      · cases h
      · rename_i hless
        obtain ⟨⟨r, a⟩, hra, heq⟩ := Option.map_eq_some_iff.1 h
        cases heq
        rw [List.cons_append, cutPlainTag, if_neg hgreater, if_neg hless, ih hra]
        rfl

/-- A tag that has no end is given none. -/
theorem cutTag_eq_none (h : Breaking t t') (hcut : cutTag t = none) : cutTag t' = none := by
  obtain ⟨hbroken, hout, -⟩ := @scanTag_breaking none false _ _ h (by simp)
  cases hscan : scanTag none false t with
  | closed r a =>
    rw [cutTag_of_closed hscan] at hcut
    cases hcut
  | broken => rw [cutTag, hbroken hscan]
  | ranOut =>
    rw [cutTag, hscan] at hcut
    rcases hout hscan with hscan' | hscan'
    · rw [cutTag, hscan']
    · rw [cutTag, hscan']
      exact cutPlainTag_eq_none h hcut

/-- A tag without line breaks has its end where it had it, if what the quotes hide keeps hiding
it. -/
theorem cutTag_breaking (h : Breaking t t') {rest after : Text}
    (hcut : cutTag t = some (rest, after)) (hplain : ∀ c ∈ rest, isLineBreak c = false)
    (hvalues : scanTag none false t = .ranOut → breaksInValues none false t = true) :
    ∃ after', t' = rest ++ after' ∧ cutTag t' = some (rest, after') ∧ Breaking after after' := by
  have hparts := h
  rw [← append_of_cutTag hcut] at hparts
  obtain ⟨rest', after', rfl, hrest, hafter⟩ := hparts.of_append
  obtain rfl := hrest.eq_of_no_break hplain
  refine ⟨after', rfl, ?_, hafter⟩
  cases hscan : scanTag none false t with
  | closed r a =>
    rw [cutTag_of_closed hscan] at hcut
    cases hcut
    exact cutTag_of_closed (scanTag_behind hscan after')
  | broken =>
    rw [cutTag, hscan] at hcut
    cases hcut
  | ranOut =>
    rw [cutTag, hscan] at hcut
    have hout := (@scanTag_breaking none false _ _ h (by simp)).2.2 hscan
      (hvalues hscan)
    rw [cutTag, hout]
    exact cutPlainTag_behind hcut after'

end

end Lexeme

end RichContent
