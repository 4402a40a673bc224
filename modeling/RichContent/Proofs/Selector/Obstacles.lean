/-
What the errors of selectors say.

The reader stops at the first token that cannot come, or at the end of the
text. The tokens in front of it begin a selector, with this one they do not,
and what the place expects is what could have come instead (`expects_of_run?`).

If nothing of the current compound selector is complete, its beginning is
reported, and not the token. In front of that is a separator or nothing
(`Draft.Leads`), and what follows begins with no compound selector and no
qualifier: with one the reading would have been over it before it stopped
(`Place.reaches_of_spelled`).
-/
import RichContent.Proofs.Selector.Viable

namespace RichContent

open Text

/-- Is the token always the same? Names and quoted texts differ, and what is invalid is no
choice. -/
def Token.isFixed : Token → Bool
  | ident _ | quoted _ | invalid _ => false
  | _ => true

theorem Token.exists_spelled_of_isFixed {token : Token} (h : token.isFixed = true) :
    ∃ w, token.Spelled w := by
  have hnil : Blanks [] := Selector.Place.Opened.blanks_nil
  have hblank : Blanks [' '] := List.forall_mem_singleton.2 (by decide)
  cases token with
  | comma => exact ⟨[','], .comma ⟨[], [], rfl, hnil, hnil⟩⟩
  | space => exact ⟨[' '], .space ⟨List.cons_ne_nil _ _, hblank⟩⟩
  | dot => exact ⟨_, .dot⟩
  | hash => exact ⟨_, .hash⟩
  | star => exact ⟨_, .star⟩
  | opening => exact ⟨_, .opening⟩
  | closing => exact ⟨_, .closing⟩
  | equals => exact ⟨_, .equals⟩
  | ident | quoted | invalid => cases h

namespace Selector

/-! ## What is expected -/

namespace Place

theorem token_mem_expected (p : Place) (token : Token) :
    Expectation.token token ∈ p.expected ↔ token.isFixed = true ∧ ∃ p', p.next? token = some p' := by
  have htable : decide (Expectation.token token ∈ p.expected) =
      (token.isFixed && (p.next? token).isSome) := by
    cases p <;> cases token <;> rfl
  have hiff := Bool.eq_iff_iff.1 htable
  rw [decide_eq_true_iff, Bool.and_eq_true, Option.isSome_iff_exists] at hiff
  exact hiff

theorem ending_mem_expected (p : Place) : Expectation.ending ∈ p.expected ↔ p = item := by
  cases p <;> simp [expected]

theorem nodup_expected (p : Place) : p.expected.Nodup := by
  cases p <;> simp [expected]

end Place

/-- What could stand behind some tokens that begin a selector: each token of one spelling that goes
on with one, and the end if they are one. -/
structure Expects (tokens : List Token) (expected : List Expectation) : Prop where
  viable : Viable tokens
  nodup : expected.Nodup
  token_mem : ∀ token, .token token ∈ expected ↔
    token.isFixed = true ∧ Viable (tokens ++ [token])
  ending_mem : .ending ∈ expected ↔ Complete tokens

section

variable {tokens : List Token} {t : Text} {p : Place}

theorem expects_of_run? (ht : Token.SpelledAll tokens t) (h : Place.start.run? tokens = some p) :
    Expects tokens p.expected where
  viable := (viable_iff ht).2 ⟨p, h⟩
  nodup := p.nodup_expected
  token_mem := by
    intro token
    rw [p.token_mem_expected, ← Place.run?_concat h]
    constructor
    · intro hfixed
      obtain ⟨w, hw⟩ := Token.exists_spelled_of_isFixed hfixed.1
      exact ⟨hfixed.1, (viable_iff (ht.concat hw)).2 hfixed.2⟩
    · intro hviable
      exact ⟨hviable.1, hviable.2.exists_run?⟩
  ending_mem := by
    rw [p.ending_mem_expected, complete_iff ht, h, Option.some.injEq]

theorem not_viable_concat (h : Place.start.run? tokens = some p) {token : Token}
    (hnext : p.next? token = none) : ¬ Viable (tokens ++ [token]) := by
  intro hviable
  obtain ⟨p', hrun⟩ := hviable.exists_run?
  rw [Place.run?_concat h, hnext] at hrun
  cases hrun

end

/-! ## Compound selectors that are complete -/

namespace Place

/-- Do some tokens lead, by the first of them or more, to where a part of a compound selector is
over? -/
def Reaches (p : Place) (tokens : List Token) : Prop :=
  ∃ l, l <+: tokens ∧ p.run? l = some item

section

variable {p p' : Place} {token : Token} {tokens : List Token}

theorem not_reaches_concat (h : ¬ p.Reaches tokens) (hitem : p.run? (tokens ++ [token]) ≠ some item) :
    ¬ p.Reaches (tokens ++ [token]) := by
  intro hreaches
  obtain ⟨l, hl, hrun⟩ := hreaches
  rcases List.prefix_concat_iff.1 hl with rfl | hl
  · exact hitem hrun
  · exact h ⟨l, hl, hrun⟩

/-- What comes behind a token that cannot be read makes no difference. -/
theorem not_reaches_of_next? (h : ¬ p.Reaches tokens) (hrun : p.run? tokens = some p')
    (hnext : p'.next? token = none) (rest : List Token) : ¬ p.Reaches (tokens ++ token :: rest) := by
  intro hreaches
  obtain ⟨l, hl, hitem⟩ := hreaches
  rcases List.prefix_or_prefix_of_prefix hl (List.prefix_append tokens (token :: rest)) with
    hl' | ⟨more, rfl⟩
  · exact h ⟨l, hl', hitem⟩
  · cases more with
    | nil =>
      rw [List.append_nil] at hitem
      exact h ⟨tokens, List.prefix_rfl, hitem⟩
    | cons x more =>
      obtain ⟨rest', heq⟩ := hl
      rw [List.append_assoc, List.append_cancel_left_eq, List.cons_append] at heq
      obtain ⟨rfl, -⟩ := List.cons.inj heq
      rw [run?_append, hrun, Option.bind_some, run?, hnext] at hitem
      cases hitem

end

/-- Of a name the rest of the text may be more, and it is a name still. -/
theorem kinds_of_isName {n : Text} (hn : IsName n) (rest : Text) :
    ∃ n' rest', Token.kinds (n ++ rest) = .ident n' :: Token.kinds rest' := by
  have hname : IsName (n ++ rest.takeWhile Token.isIdentChar) := by
    refine ⟨fun hnil => hn.ne_nil (List.append_eq_nil_iff.1 hnil).1, ?_⟩
    intro c hc
    rcases List.mem_append.1 hc with hc | hc
    · exact hn.plain c hc
    · exact List.mem_takeWhile_imp hc
  have hparted : Token.Parted (rest.dropWhile Token.isIdentChar) := by
    intro c hc
    have hhead := List.head?_dropWhile_not Token.isIdentChar rest
    rw [hc] at hhead
    simpa using hhead
  refine ⟨n ++ rest.takeWhile Token.isIdentChar, rest.dropWhile Token.isIdentChar, ?_⟩
  rw [← Token.kinds_of_leads (Token.leads_ident hname hparted), List.append_assoc,
    List.takeWhile_append_dropWhile]

/-- With the last token of a part that part is over, also if a name goes on in what is behind it. -/
theorem kinds_of_next?_item {p : Place} {token : Token} {w : Text} (hw : token.Spelled w)
    (h : p.next? token = some item) (rest : Text) :
    p.Allows (w ++ rest) ∧ ∃ token' rest', Token.kinds (w ++ rest) = token' :: Token.kinds rest' ∧
      p.next? token' = some item := by
  obtain ⟨d, d', hsteps, hplace⟩ := exists_steps h
  cases hsteps with
  | universal =>
    cases hw
    have hlead : Token.star.Leads ['*'] rest := Token.leads_mark (c := '*') (by decide) rest
    exact ⟨(leads_of_mark (c := '*') (by decide)).2, _, rest, Token.kinds_of_leads hlead, rfl⟩
  | bare | valued =>
    cases hw
    have hlead : Token.closing.Leads [']'] rest := Token.leads_mark (c := ']') (by decide) rest
    exact ⟨(leads_of_mark (c := ']') (by decide)).2, _, rest, Token.kinds_of_leads hlead, h⟩
  | type =>
    cases hw with
    | ident hn =>
      obtain ⟨n', rest', hkinds⟩ := kinds_of_isName hn rest
      exact ⟨Draft.begun_of_isName hn rest, .ident n', rest', hkinds, rfl⟩
  | cls | id =>
    cases hw with
    | ident hn =>
      obtain ⟨n', rest', hkinds⟩ := kinds_of_isName hn rest
      exact ⟨trivial, .ident n', rest', hkinds, rfl⟩
  | _ => cases hplace

theorem reaches_of_spelled {l : Selector} {w : Text} (h : l.Spelled w) (rest : Text) :
    start.Reaches (Token.kinds (w ++ rest)) := by
  have hrun : start.run? (Token.kinds w) = some item :=
    (Draft.exists_read_iff .empty 0 (Token.all 0 w)).1 ⟨l, (read_eq_ok_iff 0 0).2 h⟩
  have hspelled := Token.spelledAll_kinds w
  generalize Token.kinds w = tokens at hrun hspelled
  cases hspelled with
  | nil => cases hrun
  | @concat tokens token t w ht hw =>
    cases hbefore : start.run? tokens with
    | none =>
      rw [run?_append, hbefore] at hrun
      cases hrun
    | some p =>
      rw [run?_concat hbefore] at hrun
      obtain ⟨hallows, token', rest', hkinds, hnext⟩ := kinds_of_next?_item hw hrun rest
      refine ⟨tokens ++ [token'], ?_, by rw [run?_concat hbefore, hnext]⟩
      rw [List.append_assoc, kinds_append ht hbefore hallows, hkinds]
      exact ⟨Token.kinds rest', by simp⟩

end Place

/-! ## Where the reader stops -/

namespace Draft

/-- The draft behind some tokens, if they can be read. -/
def readTo (d : Draft) : List Token.Placed → Option Draft
  | [] => some d
  | x :: l => (d.step? x.slice.stop x.token).bind (·.readTo l)

/-- An error is made behind the tokens that can be read: at the end of the text where no selector
ends, or at the next token. -/
theorem exists_of_read_error {d : Draft} {size : Nat} {l : List Token.Placed} {e : Error}
    (h : d.read size l = .error e) : ∃ before d', d.readTo before = some d' ∧
      (l = before ∧ d'.place ≠ .item ∧ e = d'.error size .unexpectedEnd ⟨size, size⟩ ∨
        ∃ x after, l = before ++ x :: after ∧ d'.place.next? x.token = none ∧
          e = d'.error size (.unexpected x.token) x.slice.span) := by
  induction l generalizing d with
  | nil =>
    refine ⟨[], d, rfl, .inl ⟨rfl, ?_, ?_⟩⟩
    · intro hplace
      simp [read, finish?, hplace] at h
    · rw [read] at h
      split at h
      · cases h
      · exact (Except.error.inj h).symm
  | cons x l ih =>
    rw [read] at h
    cases hstep : d.step? x.slice.stop x.token with
    | none =>
      rw [hstep] at h
      have hnext : d.place.next? x.token = none := by
        rw [← map_place_step? d x.slice.stop, hstep, Option.map_none]
      exact ⟨[], d, rfl, .inr ⟨x, l, rfl, hnext, (Except.error.inj h).symm⟩⟩
    | some d₁ =>
      rw [hstep] at h
      obtain ⟨before, d', hread, hend⟩ := ih h
      refine ⟨x :: before, d', by rw [readTo, hstep, Option.bind_some, hread], ?_⟩
      rcases hend with ⟨rfl, hplace, he⟩ | ⟨y, after, rfl, hnext, he⟩
      · exact .inl ⟨rfl, hplace, he⟩
      · exact .inr ⟨y, after, rfl, hnext, he⟩

/-! ## Where the current compound selector begins -/

/-- In front of a compound selector are no tokens, or a selector and a separator behind it, which
ends where the compound selector begins. -/
inductive BeginsBehind : Option Nat → List Token.Placed → Prop
  | nothing : BeginsBehind none []
  | separator {init : List Token.Placed} {x : Token.Placed} :
    x.token = .comma ∨ x.token = .space →
    Place.start.run? (init.map (·.token)) = some .item →
    BeginsBehind (some x.slice.stop) (init ++ [x])

/-- A token moves on in a part, or makes something of the compound selector complete, or is a
separator behind it. -/
theorem Steps.moves_completes_or_separates {d d' : Draft} {stop : Nat} {p : Place} {token : Token}
    (h : d.Steps stop p token d') :
    (∃ place, place ≠ .item ∧ d' = d.moveTo place) ∨ d'.current ≠ ⟨none, []⟩ ∨
      p = .item ∧ (token = .comma ∨ token = .space) ∧
        d'.current = ⟨none, []⟩ ∧ d'.origin = some stop ∧ d'.place = .start := by
  cases h with
  | universal | type =>
    right; left
    simp [withType]
  | cls | id | bare | valued =>
    right; left
    simp [withQualifier]
  | member => exact .inr (.inr ⟨rfl, .inl rfl, rfl, rfl, rfl⟩)
  | descendant => exact .inr (.inr ⟨rfl, .inr rfl, rfl, rfl, rfl⟩)
  | _ => exact .inl ⟨_, by rintro ⟨⟩, rfl⟩

/-- What a draft knows of the tokens that have been read. As long as nothing of the current compound
selector is complete, none of the tokens since its beginning has led to the end of a part. -/
structure Traces (d : Draft) (done : List Token.Placed) : Prop where
  run : Place.start.run? (done.map (·.token)) = some d.place
  begun : d.current = ⟨none, []⟩ → ∃ before inside, done = before ++ inside ∧
    BeginsBehind d.origin before ∧
    Place.start.run? (inside.map (·.token)) = some d.place ∧
    ¬ Place.start.Reaches (inside.map (·.token))

theorem not_reaches_nil : ¬ Place.start.Reaches [] := by
  intro h
  obtain ⟨l, hl, hrun⟩ := h
  obtain rfl := List.prefix_nil.1 hl
  cases hrun

theorem traces_empty : empty.Traces [] :=
  ⟨rfl, fun _ => ⟨[], [], rfl, .nothing, rfl, not_reaches_nil⟩⟩

variable {d d' : Draft} {done : List Token.Placed}

theorem Traces.step (h : d.Traces done) {x : Token.Placed}
    (hstep : d.step? x.slice.stop x.token = some d') : d'.Traces (done ++ [x]) := by
  have hnext : d.place.next? x.token = some d'.place := by
    rw [← map_place_step? d x.slice.stop, hstep, Option.map_some]
  refine ⟨?_, ?_⟩
  · rw [List.map_append, List.map_singleton, Place.run?_concat h.run, hnext]
  · intro hnone
    rcases (steps_of_step hstep).moves_completes_or_separates with
      ⟨place, hitem, rfl⟩ | hcomplete | ⟨hplace, htoken, -, horigin, hstart⟩
    · obtain ⟨before, inside, rfl, hbehind, hrun, hreaches⟩ := h.begun hnone
      have hrun' : Place.start.run? ((inside ++ [x]).map (·.token)) = some place := by
        rw [List.map_append, List.map_singleton, Place.run?_concat hrun, hnext]
        rfl
      refine ⟨before, inside ++ [x], by simp, hbehind, hrun', ?_⟩
      rw [List.map_append, List.map_singleton] at hrun' ⊢
      apply Place.not_reaches_concat hreaches
      rw [hrun']
      simpa using hitem
    · exact absurd hnone hcomplete
    · refine ⟨done ++ [x], [], by simp, ?_, by rw [hstart]; rfl, not_reaches_nil⟩
      rw [horigin]
      exact .separator htoken (hplace ▸ h.run)

theorem Traces.readTo (h : d.Traces done) {l : List Token.Placed} (hread : d.readTo l = some d') :
    d'.Traces (done ++ l) := by
  induction l generalizing d done with
  | nil =>
    cases hread
    rw [List.append_nil]
    exact h
  | cons x l ih =>
    rw [Draft.readTo] at hread
    obtain ⟨d₁, hstep, hread⟩ := Option.bind_eq_some_iff.1 hread
    have hdone : done ++ x :: l = done ++ [x] ++ l := by simp
    rw [hdone]
    exact ih (h.step hstep) hread

end Draft

/-! ## Errors -/

/-- What an error says of the text that it is the error of. -/
inductive Error.Explains (t : Text) : Error → Prop
  /-- The tokens in front of the one that is found begin a selector, and with it they do not. -/
  | unexpected {before after : List Token.Placed} {x : Token.Placed} {expected : List Expectation} :
    Token.all 0 t = before ++ x :: after →
    Expects (before.map (·.token)) expected →
    ¬ Viable (before.map (·.token) ++ [x.token]) →
    Explains t ⟨x.slice.span, .unexpected x.token, expected⟩
  /-- The tokens of the text begin a selector and are none. -/
  | unexpectedEnd {expected : List Expectation} :
    Expects (Token.kinds t) expected →
    ¬ Complete (Token.kinds t) →
    Explains t ⟨⟨t.utf8Size, t.utf8Size⟩, .unexpectedEnd, expected⟩
  /-- In front of the place is nothing, or a selector and a separator; and what follows does not
  begin with a compound selector, nor with a qualifier. -/
  | noCompound {front back : Text} {before : List Token.Placed} {span : Span} :
    t = front ++ back →
    Token.all 0 t = before ++ Token.all front.utf8Size back →
    span.start = front.utf8Size →
    before = [] ∨ (∃ init x, before = init ++ [x] ∧ (x.token = .comma ∨ x.token = .space) ∧
      Complete (init.map (·.token))) →
    (∀ w, w <+: back → (∀ c : Compound, ¬ c.Spelled w) ∧ ∀ q : Qualifier, ¬ q.Spelled w) →
    Explains t ⟨span, .noCompound, []⟩

/-- A text that begins with a compound selector or a qualifier leads to the end of a part. -/
theorem Place.reaches_of_prefix {w back : Text} (h : w <+: back)
    (hw : (∃ c : Compound, c.Spelled w) ∨ ∃ q : Qualifier, q.Spelled w) :
    start.Reaches (Token.kinds back) := by
  obtain ⟨rest, rfl⟩ := h
  have hcompound : ∃ c : Compound, c.Spelled w := by
    rcases hw with hc | ⟨q, hq⟩
    · exact hc
    · have hqs := Qualifier.SpelledAll.cons hq .nil
      rw [List.append_nil] at hqs
      exact ⟨⟨none, [q]⟩, .untyped (List.cons_ne_nil _ _) hqs⟩
  obtain ⟨c, hc⟩ := hcompound
  have hselector : Selector.Spelled [[c]] w := .single (.single hc)
  exact reaches_of_spelled hselector rest

section

variable {t : Text} {d : Draft} {before after : List Token.Placed}

theorem explains_noCompound (hall : Token.all 0 t = before ++ after) (htraces : d.Traces before)
    (hnone : d.current = ⟨none, []⟩)
    (hstops : ∀ inside, Place.start.run? inside = some d.place → ¬ Place.start.Reaches inside →
      ¬ Place.start.Reaches (inside ++ after.map (·.token))) (span : Span)
    (obstacle : Obstacle) : (d.error t.utf8Size obstacle span).Explains t := by
  obtain ⟨before, inside, rfl, hbehind, hrun, hreaches⟩ := htraces.begun hnone
  rw [List.append_assoc] at hall
  obtain ⟨front, back, ht, hfront, hback, hstop⟩ := Token.exists_of_all_eq_append hall
  have hkinds : Token.kinds back = inside.map (·.token) ++ after.map (·.token) := by
    rw [Token.kinds, Token.map_token_all 0 (0 + front.utf8Size), ← hback, List.map_append]
  have hno := hstops _ hrun hreaches
  rw [← hkinds] at hno
  have hnothing : ∀ w, w <+: back →
      (∀ c : Compound, ¬ c.Spelled w) ∧ ∀ q : Qualifier, ¬ q.Spelled w := by
    intro w hw
    exact ⟨fun c hc => hno (Place.reaches_of_prefix hw (.inl ⟨c, hc⟩)),
      fun q hq => hno (Place.reaches_of_prefix hw (.inr ⟨q, hq⟩))⟩
  rw [Draft.error, if_pos hnone]
  rw [hback, Nat.zero_add] at hall
  generalize d.origin = origin at hbehind
  cases hbehind with
  | nothing =>
    obtain rfl := Token.eq_nil_of_spelledAll hfront
    exact .noCompound ht hall rfl (.inl rfl) hnothing
  | @separator init x htoken hinit =>
    have hstart : x.slice.stop = front.utf8Size := by simpa using hstop x List.getLast?_concat
    rw [List.append_assoc] at hall
    obtain ⟨_, _, -, hspelled, -, -⟩ := Token.exists_of_all_eq_append hall
    rw [← List.append_assoc] at hall
    exact .noCompound ht hall hstart
      (.inr ⟨init, x, rfl, htoken, (complete_iff hspelled).2 hinit⟩) hnothing

end

/-- **Errors point at the first token that cannot be one of a selector, and say what can.** Where no
part of a compound selector is complete they point at its beginning, and none begins there. -/
theorem parse_error_explains {t : Text} {e : Error} (h : parse t = .error e) :
    e.Explains (trim t) := by
  rw [parse] at h
  obtain ⟨before, d, hread, hend⟩ := Draft.exists_of_read_error h
  have htraces : d.Traces before := Draft.traces_empty.readTo hread
  have hplace := htraces.run
  rcases hend with ⟨hall, hitem, rfl⟩ | ⟨x, after, hall, hnext, rfl⟩
  · have hkinds : Token.kinds (trim t) = before.map (·.token) := by rw [Token.kinds, hall]
    have hspelled := Token.spelledAll_kinds (trim t)
    by_cases hnone : d.current = ⟨none, []⟩
    · have hend : Token.all 0 (trim t) = before ++ [] := by rw [hall, List.append_nil]
      apply explains_noCompound hend htraces hnone
      intro inside _ hreaches
      simpa using hreaches
    · rw [Draft.error, if_neg hnone]
      rw [← hkinds] at hplace
      refine .unexpectedEnd (expects_of_run? hspelled hplace) ?_
      rw [complete_iff hspelled, hplace]
      simpa using hitem
  · obtain ⟨_, _, -, hspelled, -, -⟩ := Token.exists_of_all_eq_append hall
    by_cases hnone : d.current = ⟨none, []⟩
    · apply explains_noCompound hall htraces hnone
      intro inside hrun hreaches
      rw [List.map_cons]
      exact Place.not_reaches_of_next? hreaches hrun hnext _
    · rw [Draft.error, if_neg hnone]
      exact .unexpected hall (expects_of_run? hspelled hplace) (not_viable_concat hplace hnext)

/-- A name behind the value of an attribute, where only the bracket can come. -/
theorem parse_error_explains_twoValues :
    let t := " a, img[alt=b c] ".toList
    let e : Error := ⟨⟨13, 14⟩, .unexpected (.ident "c".toList), [.token .closing]⟩
    parse t = .error e ∧ e.Explains (trim t) := by
  intro t e
  have h : parse t = .error e := by decide +kernel
  exact ⟨h, parse_error_explains h⟩

end Selector

end RichContent
