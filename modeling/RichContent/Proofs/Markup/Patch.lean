/-
Sources in which nodes have given way to other markup, lexed again.

A lexeme that has an end is read again as it was, whatever comes behind it
now, because its end belongs to it. One that begins and is never finished is
not finished by what has been put in either: that begins with a `<` and has no
`->` in it (`Fits`). Only a value that is never closed would be, because it
hides a `<` from the scan for the end of its tag. So what is put in must not
begin in such a value (`Lexeme.Unhidden`).
-/
import RichContent.Proofs.Markup.Fit
import RichContent.Proofs.Text.Tile

namespace RichContent

open Text

/-! ## Cuts that do not look behind what they cut off -/

namespace Text

theorem cutAfterGreater_behind {t before after : Text}
    (h : cutAfterGreater t = some (before, after)) (x : Text) :
    cutAfterGreater (before ++ x) = some (before, x) := by
  induction t generalizing before with
  | nil => cases h
  | cons c t ih =>
    rw [cutAfterGreater] at h
    split at h
    · rename_i hc
      cases h
      simp [cutAfterGreater]
    · rename_i hc
      obtain ⟨⟨b, a⟩, hba, heq⟩ := Option.map_eq_some_iff.1 h
      cases heq
      rw [List.cons_append, cutAfterGreater, if_neg hc, ih hba]
      rfl

/-- What is cut off ends with the first `>`. -/
theorem cutAfterGreater_eq_some {t before after : Text}
    (h : cutAfterGreater t = some (before, after)) :
    ∃ w, before = w ++ ['>'] ∧ ∀ c ∈ w, c ≠ '>' := by
  induction t generalizing before with
  | nil => cases h
  | cons c t ih =>
    rw [cutAfterGreater] at h
    split at h
    · cases h
      exact ⟨[], rfl, by simp⟩
    · rename_i hc
      obtain ⟨⟨b, a⟩, hba, heq⟩ := Option.map_eq_some_iff.1 h
      cases heq
      obtain ⟨w, rfl, hw⟩ := ih hba
      exact ⟨c :: w, rfl, List.forall_mem_cons.2 ⟨hc, hw⟩⟩

theorem cutAt_behind {piece t before after : Text} (h : cutAt piece t = some (before, after))
    (x : Text) : cutAt piece (before ++ piece ++ x) = some (before, x) := by
  induction t generalizing before with
  | nil =>
    rw [cutAt] at h
    split at h
    · cases h
      rw [List.nil_append, cutAt.eq_def, after?_eq_some.2 rfl]
    · cases h
  | cons c t ih =>
    rw [cutAt] at h
    split at h
    · cases h
      rw [List.nil_append, cutAt.eq_def, after?_eq_some.2 rfl]
    · rename_i hnone
      obtain ⟨⟨b, a⟩, hba, heq⟩ := Option.map_eq_some_iff.1 h
      cases heq
      have happ := append_of_cutAt hba
      have hno : after? piece (c :: (b ++ piece ++ x)) = none := by
        rw [after?_eq_none] at hnone ⊢
        intro hprefix
        -- an earlier occurrence would lie within what is up to this one
        have hshort : piece <+: c :: (b ++ piece) :=
          List.prefix_of_prefix_length_le hprefix ⟨x, by simp⟩ (by simp; omega)
        exact hnone (hshort.trans ⟨after, by rw [List.cons_append, happ]⟩)
      rw [List.cons_append, List.cons_append, cutAt, hno, ih hba]
      rfl

end Text

namespace Lexeme

theorem TagEnd.cons_eq_closed {e : TagEnd} {c : Char} {rest after : Text} :
    e.cons c = closed rest after ↔ ∃ r, rest = c :: r ∧ e = closed r after := by
  cases e with
  | closed r a =>
    simp only [cons, closed.injEq]
    constructor
    · rintro ⟨rfl, rfl⟩
      exact ⟨r, rfl, rfl, rfl⟩
    · rintro ⟨r', rfl, rfl, rfl⟩
      exact ⟨rfl, rfl⟩
  | broken | ranOut => simp [cons]

theorem TagEnd.cons_eq_broken {e : TagEnd} {c : Char} : e.cons c = broken ↔ e = broken := by
  cases e <;> simp [cons]

theorem TagEnd.cons_eq_ranOut {e : TagEnd} {c : Char} : e.cons c = ranOut ↔ e = ranOut := by
  cases e <;> simp [cons]

theorem TagEnd.behind_eq_broken {w : Text} {e : TagEnd} : e.behind w = broken ↔ e = broken := by
  induction w with
  | nil => rfl
  | cons c w ih => rw [behind_cons, cons_eq_broken, ih]

theorem TagEnd.behind_eq_ranOut {w : Text} {e : TagEnd} : e.behind w = ranOut ↔ e = ranOut := by
  induction w with
  | nil => rfl
  | cons c w ih => rw [behind_cons, cons_eq_ranOut, ih]

/-- Where a scan for the end of a tag is after one more character, unless it has ended there. -/
def scanStep (quote : Option Char) (afterEquals : Bool) (c : Char) :
    Option (Option Char × Bool) :=
  match quote with
  | some q => some (if c = q then (none, false) else (quote, afterEquals))
  | none =>
    if (c = '"' ∨ c = '\'') ∧ afterEquals then some (some c, false)
    else if c = '>' ∨ c = '<' then none
    else some (none, if isBlank c then afterEquals else c = '=')

theorem scanTag_cons (quote : Option Char) (b : Bool) (c : Char) (t : Text) :
    scanTag quote b (c :: t) =
      match scanStep quote b c with
      | some (quote', b') => (scanTag quote' b' t).cons c
      | none => if c = '>' then .closed ['>'] t else .broken := by
  cases quote with
  | some q =>
    simp only [scanTag, scanStep]
    split <;> rfl
  | none =>
    simp only [scanTag, scanStep]
    by_cases hopen : (c = '"' ∨ c = '\'') ∧ b = true
    · rw [if_pos hopen, if_pos hopen]
    · rw [if_neg hopen, if_neg hopen]
      by_cases hgreater : c = '>'
      · simp [hgreater]
      · by_cases hless : c = '<'
        · simp [hless]
        · simp [hgreater, hless]

theorem scanTag_behind {t rest after : Text} {quote : Option Char} {b : Bool}
    (h : scanTag quote b t = .closed rest after) (x : Text) :
    scanTag quote b (rest ++ x) = .closed rest x := by
  induction t generalizing quote b rest with
  | nil => simp [scanTag] at h
  | cons c t ih =>
    rw [scanTag_cons] at h
    cases hstep : scanStep quote b c with
    | some next =>
      simp only [hstep] at h
      obtain ⟨r, rfl, hr⟩ := TagEnd.cons_eq_closed.1 h
      rw [List.cons_append, scanTag_cons, hstep]
      simp only [ih hr]
      rfl
    | none =>
      simp only [hstep] at h
      split at h
      · rename_i hc
        cases h
        rw [List.cons_append, scanTag_cons, ← hc, hstep]
        simp [hc]
      · cases h

end Lexeme

/-! ## Putting markup in -/

/-- The first text begins at byte `n` of a source. The second is the first with other markup in
the place of runs of it, each of which begins at a byte of `cut` and with a `<`. -/
inductive Patched (cut : Nat → Prop) : Nat → Text → Text → Prop
  | nil {n : Nat} : Patched cut n [] []
  | keep {n : Nat} {c : Char} {t t' : Text} :
    Patched cut (n + c.utf8Size) t t' → Patched cut n (c :: t) (c :: t')
  | swap {n : Nat} {run h t t' : Text} :
    cut n → run.head? = some '<' → Fits h → Patched cut (n + run.utf8Size) t t' →
    Patched cut n (run ++ t) (h ++ t')

namespace Patched

variable {cut : Nat → Prop} {n : Nat} {c : Char} {s t t' : Text}

theorem keep_append (h : Patched cut (n + s.utf8Size) t t') : Patched cut n (s ++ t) (s ++ t') := by
  induction s generalizing n with
  | nil => exact h
  | cons c s ih =>
    apply keep
    apply ih
    rw [Nat.add_assoc]
    exact h

/-- Nothing is put in that begins with anything but what it takes the place of. -/
theorem head?_eq (h : Patched cut n t t') : t'.head? = t.head? := by
  cases h with
  | nil => rfl
  | keep h => rfl
  | swap hcut hrun hfits h =>
    rw [List.head?_append, List.head?_append, hrun, hfits.less]
    rfl

theorem of_nil (h : Patched cut n [] t') : t' = [] := by
  have hhead := h.head?_eq
  exact List.head?_eq_none_iff.1 hhead

/-- What does not begin with a `<` is kept. -/
theorem of_cons (h : Patched cut n (c :: t) t') (hc : c ≠ '<') :
    ∃ t'', t' = c :: t'' ∧ Patched cut (n + c.utf8Size) t t'' := by
  generalize hs : c :: t = s at h
  cases h with
  | nil => cases hs
  | keep h =>
    cases hs
    exact ⟨_, rfl, h⟩
  | @swap _ run h t₁ t₁' hcut hrun hfits h =>
    obtain ⟨run, rfl⟩ := List.head?_eq_some_iff.1 hrun
    cases hs
    exact absurd rfl hc

theorem of_cons_right (h : Patched cut n t (c :: t')) (hc : c ≠ '<') :
    ∃ t'', t = c :: t'' ∧ Patched cut (n + c.utf8Size) t'' t' := by
  have hhead := h.head?_eq
  obtain ⟨t'', rfl⟩ := List.head?_eq_some_iff.1 hhead.symm
  obtain ⟨_, heq, ht⟩ := h.of_cons hc
  cases heq
  exact ⟨t'', rfl, ht⟩

end Patched

theorem cutAt_of_append {piece s t : Text} (h : cutAt piece (s ++ t) = none) :
    cutAt piece t = none := by
  induction s with
  | nil => exact h
  | cons c s ih => exact ih (cutAt_cons.1 h).2

/-- A comment that is never finished is not finished by what is put in. -/
theorem Patched.cutAt_eq_none {cut : Nat → Prop} {n : Nat} {t t' : Text} (hp : Patched cut n t t')
    (h : cutAt "-->".toList t = none) : cutAt "-->".toList t' = none := by
  induction hp with
  | nil => exact h
  | @keep n c t t' hp ih =>
    obtain ⟨hno, ht⟩ := cutAt_cons.1 h
    refine cutAt_cons.2 ⟨?_, ih ht⟩
    rintro ⟨rest, heq⟩
    -- the three characters are not put in, so they have been there before
    have hend : "-->".toList ++ rest = '-' :: '-' :: '>' :: rest := rfl
    rw [hend] at heq
    obtain ⟨rfl, rfl⟩ := List.cons.inj heq
    obtain ⟨t₁, rfl, hp₁⟩ := hp.of_cons_right (by decide)
    obtain ⟨t₂, rfl, -⟩ := hp₁.of_cons_right (by decide)
    exact hno ⟨t₂, rfl⟩
  | swap hcut hrun hfits hp ih => exact hfits.cutAt_append (ih (cutAt_of_append h))

namespace Lexeme

/-! ## Tags that have no end -/

/-- Is a scan for the end of a tag inside of a quoted value where the text ends? -/
def inValue (quote : Option Char) (afterEquals : Bool) : Text → Bool
  | [] => quote.isSome
  | c :: t =>
    match scanStep quote afterEquals c with
    | some (quote', afterEquals') => inValue quote' afterEquals' t
    | none => false

/-- Nothing is put in inside of a quoted value. -/
def Unhidden (cut : Nat → Prop) (n : Nat) (quote : Option Char) (afterEquals : Bool) (t : Text) :
    Prop :=
  ∀ w r, t = w ++ r → cut (n + w.utf8Size) → inValue quote afterEquals w = false

theorem Unhidden.of_cons {cut : Nat → Prop} {n : Nat} {quote quote' : Option Char} {b b' : Bool}
    {c : Char} {t : Text} (h : Unhidden cut n quote b (c :: t))
    (hstep : scanStep quote b c = some (quote', b')) :
    Unhidden cut (n + c.utf8Size) quote' b' t := by
  intro w r ht hcut
  have hvalue := h (c :: w) r (by rw [ht, List.cons_append])
    (by rw [utf8Size_cons, ← Nat.add_assoc]; exact hcut)
  rw [inValue, hstep] at hvalue
  exact hvalue

/-- What is put in outside of values breaks a tag off where a `<` did before. A scan that has run
out has come upon nothing that was put in. -/
theorem scanTag_patched {cut : Nat → Prop} {n : Nat} {t t' : Text} (hp : Patched cut n t t')
    {quote : Option Char} {b : Bool} (hu : Unhidden cut n quote b t) :
    (scanTag quote b t = .broken → scanTag quote b t' = .broken) ∧
      (scanTag quote b t = .ranOut → t' = t) := by
  induction hp generalizing quote b with
  | nil => exact ⟨id, fun _ => rfl⟩
  | @keep n c t t' hp ih =>
    rw [scanTag_cons, scanTag_cons]
    cases hstep : scanStep quote b c with
    | some next =>
      obtain ⟨quote', b'⟩ := next
      obtain ⟨hbroken, hout⟩ := ih (hu.of_cons hstep)
      simp only [TagEnd.cons_eq_broken, TagEnd.cons_eq_ranOut]
      exact ⟨hbroken, fun h => by rw [hout h]⟩
    | none =>
      by_cases hc : c = '>' <;> simp [hc]
  | @swap n run h t t' hcut hrun hfits hp ih =>
    have hout := hu [] (run ++ t) rfl hcut
    obtain rfl : quote = none := by simpa [inValue] using hout
    obtain ⟨run, rfl⟩ := List.head?_eq_some_iff.1 hrun
    obtain ⟨h, rfl⟩ := List.head?_eq_some_iff.1 hfits.less
    have hbroken (x : Text) : scanTag none b ('<' :: x) = .broken := by simp [scanTag]
    rw [List.cons_append, List.cons_append, hbroken, hbroken]
    exact ⟨id, fun h => by cases h⟩

/-! ## The next lexeme -/

/-- The same step with something else behind it. -/
def Step.before (s : Step) (after : Text) : Step := ⟨s.text, s.kind, after⟩

section

variable {cut : Nat → Prop} {n : Nat} {letter : Char} {body rest after : Text}

theorem ne_of_isLetter {d e : Char} (hd : isLetter d = true) (he : isLetter e = false) : d ≠ e := by
  rintro rfl
  rw [he] at hd
  cases hd

theorem utf8Size_of_isLetter (h : isLetter letter = true) : letter.utf8Size = 1 := by
  have hrange : (decide (letter.val ≥ 'A'.val ∧ letter.val ≤ 'Z'.val) ||
    (decide (letter.val ≥ 'a'.val) && decide (letter.val ≤ 'z'.val))) = true := h
  simp only [Bool.or_eq_true, Bool.and_eq_true, decide_eq_true_eq, ge_iff_le,
    UInt32.le_iff_toNat_le] at hrange
  have hZ : 'Z'.val.toNat = 90 := rfl
  have hz : 'z'.val.toNat = 122 := rfl
  have h127 : (127 : UInt32).toNat = 127 := rfl
  rw [Char.utf8Size_eq_one_iff, UInt32.le_iff_toNat_le]
  omega

theorem toGreater_patched {opening : Text} {kind : Text → Kind}
    (h : Patched cut n (toGreater opening rest kind).after after) :
    ∃ rest', (toGreater opening rest kind).text ++ after = opening ++ rest' ∧
      toGreater opening rest' kind = (toGreater opening rest kind).before after := by
  cases hcut : cutAfterGreater rest with
  | some cut =>
    obtain ⟨before, behind⟩ := cut
    refine ⟨before ++ after, ?_, ?_⟩
    · simp [toGreater, hcut]
    · simp [toGreater, hcut, cutAfterGreater_behind hcut, Step.before]
  | none =>
    simp only [toGreater, hcut] at h
    obtain rfl := h.of_nil
    exact ⟨rest, by simp [toGreater, hcut], by simp [toGreater, hcut, Step.before]⟩

theorem comment_patched (h : Patched cut n (comment body).after after) :
    ∃ body', (comment body).text ++ after = "<!--".toList ++ body' ∧
      comment body' = (comment body).before after := by
  cases hcut : cutAt "-->".toList body with
  | some cut =>
    obtain ⟨before, behind⟩ := cut
    refine ⟨before ++ "-->".toList ++ after, ?_, ?_⟩
    · rw [comment, hcut]
      simp
    · rw [comment, cutAt_behind hcut, comment, hcut]
      rfl
  | none =>
    simp only [comment, hcut] at h
    refine ⟨after, by rw [comment, hcut], ?_⟩
    rw [comment, h.cutAt_eq_none hcut, comment, hcut]
    rfl

/-- A start tag that the quotes have closed. -/
theorem cutTag_of_closed {t rest after : Text} (h : scanTag none false t = .closed rest after) :
    cutTag t = some (rest, after) := by
  rw [cutTag, h]

/-- A tag that has an end keeps it. -/
theorem cutTag_behind {t behind : Text} (hu : Unhidden cut n none false t)
    (hcut : cutTag t = some (rest, behind)) (h : Patched cut (n + rest.utf8Size) behind after) :
    cutTag (rest ++ after) = some (rest, after) := by
  cases hscan : scanTag none false t with
  | closed r a =>
    rw [cutTag_of_closed hscan] at hcut
    cases hcut
    exact cutTag_of_closed (scanTag_behind hscan after)
  | broken =>
    rw [cutTag, hscan] at hcut
    cases hcut
  | ranOut =>
    -- the quotes run on to the end of the source, and so nothing is put in behind the tag
    have happ := append_of_cutTag hcut
    have hpatched := h.keep_append
    rw [happ] at hpatched
    have hsame := (scanTag_patched hpatched hu).2 hscan
    rw [← happ] at hsame
    obtain rfl := List.append_cancel_left hsame
    rw [happ, hcut]

/-- A tag that has no end is given none. -/
theorem cutTag_patched {t : Text} (hu : Unhidden cut n none false t) (hcut : cutTag t = none)
    (h : Patched cut n t after) : cutTag after = none := by
  obtain ⟨hbroken, hout⟩ := scanTag_patched h hu
  cases hscan : scanTag none false t with
  | closed r a =>
    rw [cutTag_of_closed hscan] at hcut
    cases hcut
  | broken => rw [cutTag, hbroken hscan]
  | ranOut => rw [hout hscan, hcut]

theorem startTag_patched (hl : isLetter letter = true) (hu : Unhidden cut (n + 2) none false body)
    (h : Patched cut (n + (startTag letter body).text.utf8Size) (startTag letter body).after
      after) :
    ∃ body', (startTag letter body).text ++ after = '<' :: letter :: body' ∧
      startTag letter body' = (startTag letter body).before after := by
  have hsize (t : Text) : n + utf8Size ('<' :: letter :: t) = n + 2 + utf8Size t := by
    have hless : '<'.utf8Size = 1 := rfl
    rw [utf8Size_cons, utf8Size_cons, utf8Size_of_isLetter hl, hless]
    omega
  cases hcut : cutTag body with
  | some cut' =>
    obtain ⟨rest, behind⟩ := cut'
    have hstart : startTag letter body =
        ⟨'<' :: letter :: rest, .startTag (StartTag.parse ('<' :: letter :: rest)), behind⟩ := by
      rw [startTag, hcut]
    rw [hstart, hsize] at h
    rw [hstart]
    refine ⟨rest ++ after, rfl, ?_⟩
    rw [startTag, cutTag_behind hu hcut h]
    rfl
  | none =>
    have hstart : startTag letter body = ⟨['<', letter], .unfinished, body⟩ := by
      rw [startTag, hcut]
    rw [hstart, hsize] at h
    rw [hstart]
    refine ⟨after, rfl, ?_⟩
    rw [startTag, cutTag_patched hu hcut h]
    rfl

/-- Does a `<` with this behind it begin anything? -/
def opensMarkup : Text → Bool
  | '!' :: '-' :: '-' :: _ => true
  | '!' :: d :: _ => isLetter d || d == '['
  | '?' :: _ => true
  | '/' :: d :: _ => isLetter d
  | d :: _ => isLetter d
  | [] => false

theorem markup_of_not_opensMarkup (h : opensMarkup rest = false) :
    markup rest = ⟨['<'], .loneLess, rest⟩ := by
  rw [markup.eq_def]
  split <;> simp_all [opensMarkup]

theorem opensMarkup_bang {d : Char} (hd : d ≠ '-') (t : Text) :
    opensMarkup ('!' :: d :: t) = (isLetter d || d == '[') := by
  simp [opensMarkup, hd]

theorem opensMarkup_dash (t : Text) :
    opensMarkup ('!' :: '-' :: t) = (t.head? == some '-') := by
  cases t with
  | nil => rfl
  | cons c t =>
    by_cases hc : c = '-'
    · rw [hc]
      rfl
    · simp [opensMarkup, hc, isLetter]

theorem opensMarkup_other {c : Char} (hc : c ≠ '!') (d : Char) (t : Text) :
    opensMarkup (c :: d :: t) = (c == '?' || isLetter (if c = '/' then d else c)) := by
  by_cases hquery : c = '?'
  · rw [hquery]
    rfl
  · by_cases hslash : c = '/' <;> simp [opensMarkup, hc, hquery, hslash]

/-- A `<` that begins nothing does not begin anything with other markup behind it. -/
theorem opensMarkup_patched (hp : Patched cut n rest after) (h : opensMarkup rest = false) :
    opensMarkup after = false := by
  cases rest with
  | nil => rw [hp.of_nil, h]
  | cons c t =>
    by_cases hless : c = '<'
    · obtain ⟨t', rfl⟩ := List.head?_eq_some_iff.1 hp.head?_eq
      rw [hless]
      rfl
    obtain ⟨t', rfl, ht⟩ := hp.of_cons hless
    cases t with
    | nil => rw [ht.of_nil, h]
    | cons d u =>
      obtain ⟨u', rfl⟩ := List.head?_eq_some_iff.1 ht.head?_eq
      by_cases hbang : c = '!'
      · subst hbang
        by_cases hdash : d = '-'
        · subst hdash
          obtain ⟨_, heq, hu⟩ := ht.of_cons (by decide)
          cases heq
          rw [opensMarkup_dash] at h ⊢
          rw [hu.head?_eq, h]
        · rw [opensMarkup_bang hdash] at h ⊢
          exact h
      · rw [opensMarkup_other hbang] at h ⊢
        exact h

theorem markup_bang {d : Char} (hd : (isLetter d || d == '[') = true) (t : Text) :
    markup ('!' :: d :: t) = toGreater ['<', '!', d] t fun _ => .declaration := by
  have hdash : d ≠ '-' := by rintro rfl; exact absurd hd (by decide)
  simp [markup, hdash, hd]

theorem markup_slash {d : Char} (hd : isLetter d = true) (t : Text) :
    markup ('/' :: d :: t) =
      toGreater ['<', '/', d] t fun inner => .endTag (endTagName (d :: inner)) := if_pos hd

/-- What begins with a `<` is read again as it was. -/
theorem markup_patched
    (hu : ∀ letter body, rest = letter :: body → isLetter letter = true →
      Unhidden cut (n + 2) none false body)
    (h : Patched cut (n + (markup rest).text.utf8Size) (markup rest).after after) :
    ∃ rest', (markup rest).text ++ after = '<' :: rest' ∧
      markup rest' = (markup rest).before after := by
  by_cases hopen : opensMarkup rest = false
  · rw [markup_of_not_opensMarkup hopen] at h ⊢
    exact ⟨after, rfl, markup_of_not_opensMarkup (opensMarkup_patched h hopen)⟩
  rw [opensMarkup.eq_def] at hopen
  split at hopen
  · rename_i body
    have hafter : Patched cut _ (comment body).after after := h
    obtain ⟨body', htext, hbefore⟩ := comment_patched hafter
    exact ⟨'!' :: '-' :: '-' :: body', htext, hbefore⟩
  · rename_i d body _
    have hd : (isLetter d || d == '[') = true := eq_true_of_ne_false hopen
    rw [markup_bang hd] at h ⊢
    obtain ⟨rest', htext, hbefore⟩ := toGreater_patched h
    exact ⟨'!' :: d :: rest', htext, (markup_bang hd rest').trans hbefore⟩
  · rename_i body
    have hafter : Patched cut _ (toGreater ['<', '?'] body fun _ => .instruction).after after := h
    obtain ⟨rest', htext, hbefore⟩ := toGreater_patched hafter
    exact ⟨'?' :: rest', htext, hbefore⟩
  · rename_i d body
    have hd : isLetter d = true := eq_true_of_ne_false hopen
    rw [markup_slash hd] at h ⊢
    obtain ⟨rest', htext, hbefore⟩ := toGreater_patched h
    exact ⟨'/' :: d :: rest', htext, (markup_slash hd rest').trans hbefore⟩
  · rename_i d body _ _ _ _
    have hd : isLetter d = true := eq_true_of_ne_false hopen
    rw [markup_of_isLetter hd] at h ⊢
    obtain ⟨body', htext, hbefore⟩ := startTag_patched hd (hu d body rfl hd) h
    exact ⟨d :: body', htext, (markup_of_isLetter hd body').trans hbefore⟩
  · exact absurd rfl hopen

/-- **A lexeme that is kept is read again as it was, whatever has been put in behind it.** -/
theorem next_patched {c : Char}
    (hu : ∀ letter body, c = '<' → rest = letter :: body → isLetter letter = true →
      Unhidden cut (n + 2) none false body)
    (h : Patched cut (n + (next c rest).text.utf8Size) (next c rest).after after) :
    ∃ rest', (next c rest).text ++ after = c :: rest' ∧
      next c rest' = (next c rest).before after := by
  by_cases hless : c = '<'
  · subst hless
    exact markup_patched (fun letter body => hu letter body rfl) h
  · have hnext : next c rest =
        ⟨c :: rest.takeWhile (· != '<'), .text, rest.dropWhile (· != '<')⟩ := if_neg hless
    rw [hnext] at h ⊢
    refine ⟨rest.takeWhile (· != '<') ++ after, rfl, ?_⟩
    have hkept : ∀ d ∈ rest.takeWhile (· != '<'), (d != '<') = true :=
      fun d hd => List.mem_takeWhile_imp (p := (· != '<')) hd
    have hstop : after.takeWhile (· != '<') = [] ∧ after.dropWhile (· != '<') = after := by
      have hhead := h.head?_eq
      cases after with
      | nil => exact ⟨rfl, rfl⟩
      | cons d t =>
        have hd := List.head?_dropWhile_not (· != '<') rest
        rw [← hhead] at hd
        simp at hd
        simp [hd]
    rw [next, if_neg hless, List.takeWhile_append_of_pos hkept, List.dropWhile_append_of_pos hkept,
      hstop.1, hstop.2, List.append_nil]
    rfl

end

end Lexeme

end RichContent
