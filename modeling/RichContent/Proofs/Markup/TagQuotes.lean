/-
The two readings of a start tag, and their quotes.

The scan for the end of a tag takes a quote for the beginning of a value if an
`=` is the last character in front of it that is no blank. The reading of the
attributes takes it for one only if that `=` stands behind a name. As long as
each `=` in front of a skipped stretch is such a sign, the one is in a value
where the other is (`Follows`), so what the first skips the second reads as a
value; and where an `=` is stray it does not (`quotes_of_startTag`).
-/
import RichContent.Proofs.Markup.AttributeScan
import RichContent.Proofs.Markup.TagEnd

namespace RichContent

open Text

/-! ## An `=` that is no sign -/

/-- Is an `=` here no sign between the name of an attribute and its value? It stands in the name of
the tag, has no name in front of it, or begins an unquoted value or is in one. -/
def Place.strays : Place → Bool
  | inTagName | gap | beforeValue _ | inUnquoted .. => true
  | inName _ | behindName _ | inQuoted .. => false

/-- The front of a tag ends, blanks apart, in an `=` that is no sign. -/
def StartTag.EndsInStray (front : Text) : Prop :=
  ∃ w blanks, front = w ++ '=' :: blanks ∧ (∀ c ∈ blanks, isBlank c = true) ∧
    (Place.inTagName.after w).strays = true

namespace Place

variable {p : Place} {c : Char}

theorem after_concat (p : Place) (w : Text) (c : Char) :
    p.after (w ++ [c]) = ((p.after w).next c).2 := after_append p w [c]

/-- Is a value to come, or a quoted one being read? -/
def expects : Place → Bool
  | beforeValue _ | inQuoted .. => true
  | _ => false

/-- How a reading can come to a place with one more character. -/
inductive Leads (p : Place) (c : Char) : Place → Prop
  | sign (name : Text) : c = '=' → p.strays = false → Leads p c (beforeValue name)
  | blank (name : Text) : isBlank c = true → p = beforeValue name → Leads p c (beforeValue name)
  | opens (name : Text) : isQuote c = true → p = beforeValue name → Leads p c (inQuoted name c [])
  | within (name : Text) (q : Char) (v : Text) :
    p = inQuoted name q v → Leads p c (inQuoted name q (v ++ [c]))
  | other {p' : Place} : p'.expects = false → Leads p c p'

theorem leads_next (p : Place) (c : Char) : p.Leads c (p.next c).2 := by
  have hgap : (nextOfGap c).expects = false := by
    rw [nextOfGap]
    split <;> rfl
  have hname : ∀ n, p.strays = false → p.Leads c (nextOfName n c).2 := by
    intro n hp
    rw [nextOfName]
    split
    · exact .other rfl
    · split
      · exact .sign n (by assumption) hp
      · exact .other hgap
  cases p with
  | gap => exact .other hgap
  | behindName n => exact hname n rfl
  | inName n =>
    rw [next]
    split
    · exact .other rfl
    · exact hname n rfl
  | beforeValue n =>
    rw [next]
    split
    · exact .blank n (by assumption) rfl
    · split
      · exact .opens n (by assumption) rfl
      · exact .other rfl
  | inQuoted n q v =>
    rw [next]
    split
    · exact .other rfl
    · exact .within n q v rfl
  | inTagName | inUnquoted n v =>
    rw [next]
    split <;> exact .other rfl

/-- A value is to come behind blanks, or behind an `=` that is a sign. -/
theorem of_next_beforeValue {name : Text} (h : (p.next c).2 = beforeValue name) :
    (isBlank c = true ∧ p = beforeValue name) ∨ (c = '=' ∧ p.strays = false) := by
  have hleads := leads_next p c
  rw [h] at hleads
  cases hleads with
  | sign name hc hp => exact .inr ⟨hc, hp⟩
  | blank name hc hp => exact .inl ⟨hc, hp⟩
  | other hno => cases hno

/-- A quoted value begins with a quote where a value is to come. -/
theorem of_next_inQuoted {name v : Text} {q : Char} (h : (p.next c).2 = inQuoted name q v) :
    (∃ v', p = inQuoted name q v') ∨ (isQuote c = true ∧ p = beforeValue name) := by
  have hleads := leads_next p c
  rw [h] at hleads
  cases hleads with
  | opens name hc hp => exact .inr ⟨hc, hp⟩
  | within name q v hp => exact .inl ⟨v, hp⟩
  | other hno => cases hno

theorem next_equals (h : p.strays = false) (hquoted : ∀ n q v, p ≠ inQuoted n q v) :
    ∃ name, (p.next '=').2 = beforeValue name := by
  cases p with
  | inTagName | gap | beforeValue n | inUnquoted n v => cases h
  | inQuoted n q v => exact absurd rfl (hquoted n q v)
  | inName n | behindName n =>
    exact ⟨n, by simp [next, nextOfName, Attribute.isNameChar, isBlank]⟩

theorem after_quotedValue {q : Char} {v : Text} (hq : isQuote q = true) (hv : q ∉ v) (name : Text) :
    (beforeValue name).after (q :: v ++ [q]) = gap := by
  have hvalue : ∀ u, (inQuoted name q u).after (v ++ [q]) = gap := by
    induction v with
    | nil =>
      intro u
      simp [after, next]
    | cons c v ih =>
      intro u
      obtain ⟨hc, hv⟩ := List.ne_and_not_mem_of_not_mem_cons hv
      rw [List.cons_append, after, next, if_neg (Ne.symm hc)]
      exact ih hv (u ++ [c])
  rw [List.cons_append, after, next_beforeValue_of_isQuote hq]
  exact hvalue []

end Place

namespace StartTag.EndsInStray

variable {front : Text}

theorem ne_beforeValue (h : EndsInStray front) (name : Text) :
    Place.inTagName.after front ≠ .beforeValue name := by
  obtain ⟨w, blanks, rfl, hblanks, hstrays⟩ := h
  induction blanks using List.reverseRecOn with
  | nil =>
    intro hplace
    rw [Place.after_concat] at hplace
    rcases Place.of_next_beforeValue hplace with ⟨hblank, -⟩ | ⟨-, hsign⟩
    · cases hblank
    · rw [hstrays] at hsign
      cases hsign
  | append_singleton blanks c ih =>
    obtain ⟨hblanks, hc⟩ := List.forall_mem_append.1 hblanks
    intro hplace
    rw [← List.cons_append, ← List.append_assoc, Place.after_concat] at hplace
    rcases Place.of_next_beforeValue hplace with ⟨-, hbefore⟩ | ⟨rfl, -⟩
    · exact ih hblanks hbefore
    · cases hc '=' (List.mem_singleton_self _)

theorem concat_blank (h : EndsInStray front) {c : Char} (hc : isBlank c = true) :
    EndsInStray (front ++ [c]) := by
  obtain ⟨w, blanks, rfl, hblanks, hstrays⟩ := h
  refine ⟨w, blanks ++ [c], by simp, ?_, hstrays⟩
  exact List.forall_mem_append.2 ⟨hblanks, List.forall_mem_singleton.2 hc⟩

end StartTag.EndsInStray

namespace Lexeme

/-! ## What the scan for the end skips -/

/-- Where the scan for the end of a tag is behind a text, unless it has ended there: the quote of
the value that it is in, and whether the last character that is no blank is an `=`. -/
def tagState (t : Text) : Option (Option Char × Bool) :=
  t.foldlM (fun s c => scanStep s.1 s.2 c) (none, false)

/-- Behind the front of a tag the scan for its end takes the quote for the beginning of a value, and
this text does not end the value. -/
structure InStretch (front : Text) (quote : Char) (v : Text) : Prop where
  ready : tagState front = some (none, true)
  isQuote : isQuote quote = true
  notMem : quote ∉ v

/-- The scan for the end of a tag skips a quoted stretch of its text. -/
structure Skips (body front : Text) (quote : Char) (v back : Text) : Prop
    extends InStretch front quote v where
  split : body = front ++ quote :: v ++ quote :: back

section

variable {t body front v back : Text} {q c : Char} {b : Bool} {s : Option Char × Bool}

theorem tagState_concat (t : Text) (c : Char) :
    tagState (t ++ [c]) = (tagState t).bind fun s => scanStep s.1 s.2 c := by
  simp [tagState, List.foldlM_append]

theorem Skips.starts (h : Skips body front q v back) : front <+: body :=
  ⟨q :: v ++ q :: back, by rw [h.split, List.append_assoc]⟩

/-- Outside of values a character opens one or is passed over, if the tag goes on. -/
theorem scanStep_outside (h : scanStep none b c = some s) :
    (s = (some c, false) ∧ RichContent.isQuote c = true ∧ b = true) ∨
    (s = (none, endsInEquals b c) ∧ ¬ (RichContent.isQuote c = true ∧ b = true)) := by
  rw [scanStep] at h
  by_cases hopen : (c = '"' ∨ c = '\'') ∧ b = true
  · rw [if_pos hopen] at h
    cases h
    exact .inl ⟨rfl, by simpa [RichContent.isQuote] using hopen.1, hopen.2⟩
  · rw [if_neg hopen] at h
    split at h
    · cases h
    · cases h
      exact .inr ⟨by simp [endsInEquals], by simpa [RichContent.isQuote] using hopen⟩

/-- How a scan stands behind a text: outside of values, where something is known of the text, or in
a value that begins behind such a text. -/
inductive Stands (P : Text → Bool → Prop) : Text → Option Char × Bool → Prop
  | outside {w : Text} {b : Bool} : P w b → Stands P w (none, b)
  | within {w v : Text} {q : Char} (b : Bool) :
    P w true → InStretch w q v → Stands P (w ++ q :: v) (some q, b)

/-- Where the scan is in no value it has come over single characters and whole stretches. -/
theorem stands_of_tagState {P : Text → Bool → Prop} (nil : P [] false)
    (plain : ∀ w b c, P w b → ¬ (RichContent.isQuote c = true ∧ b = true) →
      P (w ++ [c]) (endsInEquals b c))
    (stretch : ∀ w q v, P w true → InStretch w q v → P (w ++ q :: v ++ [q]) false)
    (h : tagState t = some s) : Stands P t s := by
  -- from the end, because a stretch is over with the last character of it
  induction t using List.reverseRecOn generalizing s with
  | nil =>
    cases h
    exact .outside nil
  | append_singleton w c ih =>
    rw [tagState_concat] at h
    obtain ⟨s', hw, hstep⟩ := Option.bind_eq_some_iff.1 h
    cases ih hw with
    | outside hP =>
      rcases scanStep_outside hstep with ⟨rfl, hq, rfl⟩ | ⟨rfl, hplain⟩
      · exact .within false hP ⟨hw, hq, List.not_mem_nil⟩
      · exact .outside (plain _ _ c hP hplain)
    | @within w v q b hP hin =>
      rw [scanStep] at hstep
      by_cases hc : c = q
      · rw [if_pos hc] at hstep
        cases hstep
        exact .outside (hc ▸ stretch w q v hP hin)
      · rw [if_neg hc] at hstep
        cases hstep
        have hmem : q ∉ v ++ [c] := by
          rw [List.mem_append, List.mem_singleton, not_or]
          exact ⟨hin.notMem, Ne.symm hc⟩
        rw [List.append_assoc, List.cons_append]
        exact .within b hP ⟨hin.ready, hin.isQuote, hmem⟩

/-- A value that the scan is in begins in front. -/
theorem exists_inStretch (h : tagState t = some (some q, b)) :
    ∃ w v, t = w ++ q :: v ∧ InStretch w q v := by
  cases stands_of_tagState (P := fun _ _ => True) trivial (fun _ _ _ _ _ => trivial)
    (fun _ _ _ _ _ => trivial) h with
  | within b _ hin => exact ⟨_, _, rfl, hin⟩

/-! ## Brackets inside of a tag -/

/-- A scan that ends behind a text has come over it. -/
theorem exists_tagState_of_closed {l u rest after : Text} {s : Option Char × Bool}
    (h : scanTag s.1 s.2 (l ++ u) = .closed (l ++ rest) after) (hrest : rest ≠ []) :
    ∃ s', l.foldlM (fun s c => scanStep s.1 s.2 c) s = some s' ∧
      scanTag s'.1 s'.2 u = .closed rest after := by
  induction l generalizing s with
  | nil => exact ⟨s, rfl, h⟩
  | cons c l ih =>
    rw [List.cons_append, List.cons_append, scanTag_cons] at h
    cases hstep : scanStep s.1 s.2 c with
    | some s₁ =>
      rw [hstep] at h
      obtain ⟨r, hr, hclosed⟩ := TagEnd.cons_eq_closed.1 h
      obtain rfl := (List.cons.inj hr).2
      obtain ⟨s', hs', hend⟩ := ih hclosed
      exact ⟨s', by rw [List.foldlM_cons, hstep]; exact hs', hend⟩
    | none =>
      rw [hstep] at h
      simp only at h
      split at h
      · obtain ⟨hnil, -⟩ := TagEnd.closed.inj h
        exact absurd (List.append_eq_nil_iff.1 (List.cons.inj hnil).2.symm).2 hrest
      · cases h

/-- Inside of a tag a `>` is in a stretch that is skipped. -/
theorem exists_skips_of_closed {l r after : Text}
    (h : scanTag none false (l ++ '>' :: r ++ ['>'] ++ after) =
      .closed (l ++ '>' :: r ++ ['>']) after) :
    ∃ front q v v' back, Skips (l ++ '>' :: r) front q (v ++ '>' :: v') back ∧
      l = front ++ q :: v := by
  have happ : l ++ '>' :: r ++ ['>'] = l ++ ('>' :: r ++ ['>']) := List.append_assoc ..
  rw [happ, List.append_assoc] at h
  obtain ⟨⟨quote, b⟩, hstate, hend⟩ :=
    exists_tagState_of_closed (s := (none, false)) h (by simp)
  cases quote with
  | none =>
    have hstop : scanTag none b ('>' :: r ++ ['>'] ++ after) =
        .closed ['>'] (r ++ ['>'] ++ after) := by simp [scanTag]
    rw [hstop] at hend
    simp at hend
  | some q =>
    obtain ⟨front, v, rfl, hin⟩ := exists_inStretch hstate
    -- a value that is not closed would hide the end of the tag
    have hclose : q ∈ '>' :: r ++ ['>'] := by
      by_contra hno
      have hbehind := scanTag_behind hend []
      rw [List.append_nil, scanTag_of_not_mem hno] at hbehind
      cases hbehind
    have hne : q ≠ '>' := by rcases eq_of_isQuote hin.isQuote with rfl | rfl <;> decide
    have hmem : q ∈ r := by simpa [hne] using hclose
    have hsplit := takeWhile_append_cons hmem
    refine ⟨front, q, v, r.takeWhile (· != q), (r.dropWhile (· != q)).tail,
      ⟨⟨hin.ready, hin.isQuote, ?_⟩, ?_⟩, rfl⟩
    · rw [List.mem_append, List.mem_cons, not_or, not_or]
      exact ⟨hin.notMem, hne, not_mem_takeWhile_ne q r⟩
    · conv_lhs => rw [← hsplit]
      simp

/-- Inside of a tag that is cut off a `>` is in a stretch that is skipped. -/
theorem exists_skips_of_cutTag {l r after : Text}
    (h : cutTag (l ++ '>' :: r ++ ['>'] ++ after) = some (l ++ '>' :: r ++ ['>'], after)) :
    ∃ front q v v' back, Skips (l ++ '>' :: r) front q (v ++ '>' :: v') back ∧
      l = front ++ q :: v := by
  rw [cutTag] at h
  split at h
  · rename_i hscan
    cases h
    exact exists_skips_of_closed hscan
  · cases h
  · obtain ⟨w, hw, hbare⟩ := cutPlainTag_eq_some h
    obtain ⟨rfl, -⟩ := List.append_inj' hw rfl
    exact absurd rfl (hbare '>' (by simp)).2

/-! ## The two readings go together -/

/-- Behind a text that is outside of values for the scan for the end, it is for the reading of the
attributes too; and an `=` that lets the one expect a value lets the other, if it is not stray. -/
structure Follows (front : Text) (b : Bool) : Prop where
  outside : ∀ name q v, Place.inTagName.after front ≠ .inQuoted name q v
  equals : ∀ name, Place.inTagName.after front = .beforeValue name → b = true
  ready : b = true →
    (∃ name, Place.inTagName.after front = .beforeValue name) ∨ StartTag.EndsInStray front

theorem Follows.of_expects (h : (Place.inTagName.after front).expects = false) :
    Follows front false where
  outside := by
    intro name q v hplace
    rw [hplace] at h
    cases h
  equals := by
    intro name hplace
    rw [hplace] at h
    cases h
  ready := by
    intro hb
    cases hb

theorem Follows.plain (h : Follows front b) (hc : ¬ (RichContent.isQuote c = true ∧ b = true)) :
    Follows (front ++ [c]) (endsInEquals b c) where
  outside := by
    intro name q v hplace
    rw [Place.after_concat] at hplace
    rcases Place.of_next_inQuoted hplace with ⟨v', hquoted⟩ | ⟨hq, hbefore⟩
    · exact h.outside name q v' hquoted
    · exact hc ⟨hq, h.equals name hbefore⟩
  equals := by
    intro name hplace
    rw [Place.after_concat] at hplace
    rcases Place.of_next_beforeValue hplace with ⟨hblank, hbefore⟩ | ⟨rfl, -⟩
    · rw [endsInEquals, if_pos hblank]
      exact h.equals name hbefore
    · rfl
  ready := by
    intro hequals
    rw [endsInEquals] at hequals
    rw [Place.after_concat]
    split at hequals
    · rename_i hblank
      rcases h.ready hequals with ⟨name, hbefore⟩ | hstray
      · exact .inl ⟨name, by rw [hbefore, Place.next, if_pos hblank]⟩
      · exact .inr (hstray.concat_blank hblank)
    · obtain rfl : c = '=' := by simpa using hequals
      cases hstrays : (Place.inTagName.after front).strays with
      | false => exact .inl (Place.next_equals hstrays h.outside)
      | true => exact .inr ⟨front, [], rfl, by simp, hstrays⟩

theorem Follows.stretch (h : Follows front true) (hsign : ¬ StartTag.EndsInStray front)
    (hq : RichContent.isQuote q = true) (hv : q ∉ v) : Follows (front ++ q :: v ++ [q]) false := by
  obtain ⟨name, hbefore⟩ := (h.ready rfl).resolve_right hsign
  have hgap : Place.inTagName.after (front ++ q :: v ++ [q]) = .gap := by
    rw [List.append_assoc, Place.after_append, hbefore, Place.after_quotedValue hq hv]
  exact .of_expects (hgap ▸ rfl)

theorem follows_singleton (c : Char) : Follows [c] false := by
  apply Follows.of_expects
  rw [Place.after, Place.next]
  split <;> rfl

/-- The reading of the attributes follows the scan for the end as long as no stretch that is skipped
begins behind a stray `=`. -/
theorem follows_of_tagState {letter : Char}
    (hsign : ∀ front q v back, Skips t front q v back → ¬ StartTag.EndsInStray (letter :: front))
    (h : tagState front = some (none, b)) (hfront : front <+: t) : Follows (letter :: front) b := by
  have hplain : ∀ w b c, (w <+: t → Follows (letter :: w) b) →
      ¬ (RichContent.isQuote c = true ∧ b = true) → w ++ [c] <+: t →
      Follows (letter :: (w ++ [c])) (endsInEquals b c) := by
    intro w b c hw hc hwt
    exact (hw ((List.prefix_append w [c]).trans hwt)).plain hc
  have hstretch : ∀ w q v, (w <+: t → Follows (letter :: w) true) → InStretch w q v →
      w ++ q :: v ++ [q] <+: t → Follows (letter :: (w ++ q :: v ++ [q])) false := by
    intro w q v hw hin hwt
    obtain ⟨back, ht⟩ := hwt
    have hskips : Skips t w q v back := ⟨hin, by simp [← ht]⟩
    exact (hw hskips.starts).stretch (hsign w q v back hskips) hin.isQuote hin.notMem
  cases stands_of_tagState (P := fun w b => w <+: t → Follows (letter :: w) b)
    (fun _ => follows_singleton letter) hplain hstretch h with
  | outside hfollows => exact hfollows hfront

/-- Every stretch that is skipped is read as the value of an attribute if none begins behind a stray
`=`, and only then. -/
theorem opensValue_iff_of_skips (letter : Char) (body : Text) :
    (∀ front q v back, Skips body front q v back → StartTag.OpensValue (letter :: front) q) ↔
      ∀ front q v back, Skips body front q v back → ¬ StartTag.EndsInStray (letter :: front) := by
  constructor
  · intro h front q v back hskips hstray
    obtain ⟨name, hbefore⟩ := (StartTag.opensValue_iff hskips.isQuote _).1 (h front q v back hskips)
    exact hstray.ne_beforeValue name hbefore
  · intro h front q v back hskips
    have hfollows := follows_of_tagState h hskips.ready hskips.starts
    refine (StartTag.opensValue_iff hskips.isQuote _).2 ?_
    exact (hfollows.ready rfl).resolve_right (h front q v back hskips)

end

/-- **The two readings of a start tag agree about its quotes where no `=` is stray.** Inside of the
tag a `>` is in a quoted stretch that the scan for the end of the tag has skipped; and these
stretches are all read as the values of attributes if none of them begins behind a stray `=`, and
only then. -/
theorem quotes_of_startTag {source : Text} {x : Lexeme} {tag : StartTag} (hx : x ∈ all 0 source)
    (hk : x.kind = .startTag tag) :
    ∃ letter body, x.slice.text = '<' :: letter :: body ++ ['>'] ∧
      tag.attributes = Attribute.keepFirst [] (StartTag.scanned (letter :: body)) ∧
      (∀ l r, body = l ++ '>' :: r → ∃ front q v v' back,
        Skips body front q (v ++ '>' :: v') back ∧ l = front ++ q :: v) ∧
      ((∀ front q v back, Skips body front q v back → StartTag.OpensValue (letter :: front) q) ↔
        ∀ front q v back, Skips body front q v back →
          ¬ StartTag.EndsInStray (letter :: front)) := by
  obtain ⟨c, rest, htext, hkind⟩ := next_of_mem_all hx
  obtain ⟨letter, body, after, -, hcut, hnext, rfl⟩ := exists_cutTag_of_startTag (hkind ▸ hk)
  refine ⟨letter, body, htext.trans hnext, ?_, ?_, opensValue_iff_of_skips letter body⟩
  · rw [StartTag.attributes_parse, List.cons_append, ← List.cons_append,
      StartTag.interior_of_brackets]
  · intro l r hbody
    subst hbody
    exact exists_skips_of_cutTag hcut

/-- Both quotes, brackets in both values, a blank before a value, an unquoted value with a quote in
it, and an `=` without a name. -/
theorem quotes_of_startTag_mixed :
    let text := "<p a=\"x>y\" b= '<\">' c=it's =d>".toList
    let tag : StartTag :=
      ⟨"p".toList, [⟨"a".toList, some "x>y".toList⟩, ⟨"b".toList, some "<\">".toList⟩,
        ⟨"c".toList, some "it's".toList⟩, ⟨"d".toList, none⟩], false⟩
    let x : Lexeme := ⟨⟨0, text⟩, .startTag tag⟩
    x ∈ all 0 (text ++ "e'>".toList) ∧
    ∃ letter body, x.slice.text = '<' :: letter :: body ++ ['>'] ∧
      tag.attributes = Attribute.keepFirst [] (StartTag.scanned (letter :: body)) ∧
      (∀ l r, body = l ++ '>' :: r → ∃ front q v v' back,
        Skips body front q (v ++ '>' :: v') back ∧ l = front ++ q :: v) ∧
      ((∀ front q v back, Skips body front q v back → StartTag.OpensValue (letter :: front) q) ↔
        ∀ front q v back, Skips body front q v back →
          ¬ StartTag.EndsInStray (letter :: front)) := by
  intro text tag x
  have hx : x ∈ all 0 (text ++ "e'>".toList) := by decide +kernel
  exact ⟨hx, quotes_of_startTag hx rfl⟩

/-- **Behind an `=` in an unquoted value the end of the tag is hidden by quotes that are none.** -/
theorem quotes_of_unquotedValue :
    let text := "<p a=b=\"x>y\">".toList
    let front := " a=b=".toList
    let tag : StartTag := ⟨"p".toList, [⟨"a".toList, some "b=\"x>y\"".toList⟩], false⟩
    (⟨⟨0, text⟩, .startTag tag⟩ : Lexeme) ∈ all 0 text ∧
      text = '<' :: 'p' :: (front ++ '"' :: "x>y".toList ++ ['"']) ++ ['>'] ∧
      Skips (front ++ '"' :: "x>y".toList ++ ['"']) front '"' "x>y".toList [] ∧
      ¬ StartTag.OpensValue ('p' :: front) '"' := by
  intro text front tag
  have hplace : Place.inTagName.after ('p' :: front) = .inUnquoted ['a'] "b=".toList := by
    decide +kernel
  refine ⟨by decide +kernel, by decide, ⟨⟨by decide, by decide, by decide⟩, rfl⟩, ?_⟩
  rw [StartTag.opensValue_iff (by decide), hplace]
  simp

end Lexeme

end RichContent
