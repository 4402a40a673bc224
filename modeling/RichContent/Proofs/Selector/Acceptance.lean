/-
The reader of selectors accepts what the grammar spells, and nothing else
(`read_eq_ok_iff`).

A part of the grammar is read as a whole, whatever has been read before it
(`Draft.Accepts`), if what comes behind it does not go on with its last token.
The parts are put together as the grammar does it: first what is in brackets,
then qualifiers and compound selectors, then members and lists.
-/
import RichContent.Proofs.Selector.Reading

namespace RichContent.Selector

open Text

/-- From a draft the text is read to the end and gives the selector. Where the current compound
selector begins makes no difference. -/
def Draft.Accepts (d : Draft) (t : Text) (l : Selector) : Prop :=
  ∀ origin size start, Draft.read size { d with origin := origin } (Token.all start t) = .ok l

namespace Draft

variable {d d' : Draft} {l : Selector} {token : Token} {w rest : Text}

theorem accepts_nil (h : d.finish? = some l) : d.Accepts [] l := by
  intro origin size start
  have hfinish : finish? { d with origin := origin } = some l := h
  rw [Token.all, read, hfinish]

theorem accepts_of_step (hlead : token.Leads w rest)
    (hstep : ∀ origin stop, ∃ origin',
      step? { d with origin := origin } stop token = some { d' with origin := origin' })
    (h : d'.Accepts rest l) : d.Accepts (w ++ rest) l := by
  intro origin size start
  obtain ⟨origin', hstep⟩ := hstep origin (Slice.stop ⟨start, w⟩)
  rw [hlead start, read, hstep]
  exact h origin' size _

/-- The same where the step does not begin a compound selector. -/
theorem accepts_of_move (hlead : token.Leads w rest)
    (hstep : ∀ origin stop,
      step? { d with origin := origin } stop token = some { d' with origin := origin })
    (h : d'.Accepts rest l) : d.Accepts (w ++ rest) l :=
  accepts_of_step hlead (fun origin stop => ⟨origin, hstep origin stop⟩) h

/-- Blanks that may come: either the draft goes on as it is, or from the place behind them. -/
theorem accepts_blanks (d' : Draft) {b : Text} (hb : Blanks b)
    (hrest : Token.Begun rest) (hstep : ∀ origin stop,
      step? { d with origin := origin } stop .space = some { d' with origin := origin })
    (h : d.Accepts rest l) (h' : d'.Accepts rest l) : d.Accepts (b ++ rest) l := by
  by_cases hnil : b = []
  · subst hnil
    exact h
  · exact accepts_of_move (Token.leads_space ⟨hnil, hb⟩ hrest) hstep h'

theorem begun_of_isName {n : Text} (hn : IsName n) (rest : Text) : Token.Begun (n ++ rest) := by
  obtain ⟨c, n, rfl⟩ := List.exists_cons_of_ne_nil hn.ne_nil
  exact Token.begun_cons (Token.isSpace_of_isIdentChar (hn.plain c List.mem_cons_self)) _

theorem begun_of_spelledValue {v : Text} (hv : Qualifier.SpelledValue v w) (rest : Text) :
    Token.Begun (w ++ rest) := by
  cases hv with
  | name hv => exact begun_of_isName hv rest
  | quoted hq hv =>
    refine Token.begun_cons ?_ _
    rcases hq with rfl | rfl <;> decide

theorem parted_of_blanks {b : Text} (hb : Blanks b) {rest : Text} (hrest : Token.Parted rest) :
    Token.Parted (b ++ rest) := by
  cases b with
  | nil => exact hrest
  | cons c b =>
    exact Token.parted_cons (Token.isIdentChar_of_isSpace (hb c List.mem_cons_self)) _

theorem leads_value {v : Text} (hv : Qualifier.SpelledValue v w) (hrest : Token.Parted rest) :
    ∃ token : Token, (token = .ident v ∨ token = .quoted v) ∧ token.Leads w rest := by
  cases hv with
  | name hv => exact ⟨_, .inl rfl, Token.leads_ident hv hrest⟩
  | quoted hq hv => exact ⟨_, .inr rfl, Token.leads_quoted hq hv rest⟩

/-! ### Inside of brackets -/

section

variable {b n v : Text}

theorem accepts_closing {place : Place} {q : Qualifier}
    (hstep : ∀ origin stop, step? { d.moveTo place with origin := origin } stop .closing =
      some { d.withQualifier q with origin := origin })
    (h : (d.withQualifier q).Accepts rest l) : (d.moveTo place).Accepts (']' :: rest) l :=
  accepts_of_move (Token.leads_mark (c := ']') (by decide) rest) hstep h

theorem accepts_bare (hb : Blanks b) (h : (d.withQualifier (.attr (lower n) none)).Accepts rest l) :
    (d.moveTo (.name n)).Accepts (b ++ ']' :: rest) l :=
  accepts_blanks (d.moveTo (.nameSpace n)) hb (Token.begun_cons (by decide) rest)
    (fun _ _ => rfl) (accepts_closing (fun _ _ => rfl) h) (accepts_closing (fun _ _ => rfl) h)

theorem accepts_afterValue (hb : Blanks b)
    (h : (d.withQualifier (.attr (lower n) (some v))).Accepts rest l) :
    (d.moveTo (.value n v)).Accepts (b ++ ']' :: rest) l :=
  accepts_blanks (d.moveTo (.valueSpace n v)) hb (Token.begun_cons (by decide) rest)
    (fun _ _ => rfl) (accepts_closing (fun _ _ => rfl) h) (accepts_closing (fun _ _ => rfl) h)

theorem accepts_value (hb : Blanks b) (hv : Qualifier.SpelledValue v w)
    (hrest : Token.Parted rest) (h : (d.moveTo (.value n v)).Accepts rest l) :
    (d.moveTo (.equals n)).Accepts (b ++ (w ++ rest)) l := by
  obtain ⟨token, htoken, hlead⟩ := leads_value hv hrest
  refine accepts_blanks (d.moveTo (.equalsSpace n)) hb (begun_of_spelledValue hv rest)
    (fun _ _ => rfl) ?_ ?_
  · refine accepts_of_move hlead (fun _ _ => ?_) h
    rcases htoken with rfl | rfl <;> rfl
  · refine accepts_of_move hlead (fun _ _ => ?_) h
    rcases htoken with rfl | rfl <;> rfl

theorem accepts_equals (hb : Blanks b) (h : (d.moveTo (.equals n)).Accepts rest l) :
    (d.moveTo (.name n)).Accepts (b ++ '=' :: rest) l := by
  have hlead := Token.leads_mark (c := '=') (by decide) rest
  exact accepts_blanks (d.moveTo (.nameSpace n)) hb (Token.begun_cons (by decide) rest)
    (fun _ _ => rfl) (accepts_of_move hlead (fun _ _ => rfl) h)
    (accepts_of_move hlead (fun _ _ => rfl) h)

theorem accepts_name (hb : Blanks b) (hn : IsName n) (hrest : Token.Parted rest)
    (h : (d.moveTo (.name n)).Accepts rest l) :
    (d.moveTo .bracket).Accepts (b ++ (n ++ rest)) l := by
  have hlead := Token.leads_ident hn hrest
  exact accepts_blanks (d.moveTo .bracketSpace) hb (begun_of_isName hn rest)
    (fun _ _ => rfl) (accepts_of_move hlead (fun _ _ => rfl) h)
    (accepts_of_move hlead (fun _ _ => rfl) h)

end

/-! ### Qualifiers and compound selectors -/

/-- A mark that begins a qualifier. -/
theorem accepts_begin {c : Char} {place : Place} (hbegin : d.place = .start ∨ d.place = .item)
    (hc : c = '.' ∧ place = .dot ∨ c = '#' ∧ place = .hash ∨ c = '[' ∧ place = .bracket)
    (h : (d.moveTo place).Accepts rest l) : d.Accepts (c :: rest) l := by
  have hlead : (Token.ofChar c).Leads [c] rest := by
    apply Token.leads_mark
    rcases hc with ⟨rfl, -⟩ | ⟨rfl, -⟩ | ⟨rfl, -⟩ <;> decide
  refine accepts_of_move hlead (fun origin stop => ?_) h
  rcases hc with ⟨rfl, rfl⟩ | ⟨rfl, rfl⟩ | ⟨rfl, rfl⟩ <;> rcases hbegin with hplace | hplace <;>
    simp [step?, hplace, beginQualifier?, Token.ofChar, moveTo]

theorem accepts_qualifier {q : Qualifier} (hq : q.Spelled w)
    (hbegin : d.place = .start ∨ d.place = .item) (hrest : Token.Parted rest)
    (h : (d.withQualifier q).Accepts rest l) : d.Accepts (w ++ rest) l := by
  cases hq with
  | cls hn =>
    refine accepts_begin hbegin (.inl ⟨rfl, rfl⟩) ?_
    exact accepts_of_move (Token.leads_ident hn hrest) (fun _ _ => rfl) h
  | id hn =>
    refine accepts_begin hbegin (.inr (.inl ⟨rfl, rfl⟩)) ?_
    exact accepts_of_move (Token.leads_ident hn hrest) (fun _ _ => rfl) h
  | @bare b n b' hb hn hb' =>
    have hclose : Token.Parted (b' ++ ']' :: rest) :=
      parted_of_blanks hb' (Token.parted_cons (by decide) rest)
    have haccepts := accepts_begin hbegin (.inr (.inr ⟨rfl, rfl⟩))
      (accepts_name hb hn hclose (accepts_bare hb' h))
    simpa using haccepts
  | @valued b n b₁ b₂ v w b₃ hb hn hb₁ hb₂ hv hb₃ =>
    have hclose : Token.Parted (b₃ ++ ']' :: rest) :=
      parted_of_blanks hb₃ (Token.parted_cons (by decide) rest)
    have hequals : Token.Parted (b₁ ++ '=' :: (b₂ ++ (w ++ (b₃ ++ ']' :: rest)))) :=
      parted_of_blanks hb₁ (Token.parted_cons (by decide) _)
    have haccepts := accepts_begin hbegin (.inr (.inr ⟨rfl, rfl⟩))
      (accepts_name hb hn hequals
        (accepts_equals hb₁ (accepts_value hb₂ hv hclose (accepts_afterValue hb₃ h))))
    simpa using haccepts

/-- A qualifier begins with a mark. -/
theorem exists_mark {q : Qualifier} (hq : q.Spelled w) :
    ∃ c t, w = c :: t ∧ (c = '.' ∨ c = '#' ∨ c = '[') := by
  cases hq with
  | cls | id | bare | valued => exact ⟨_, _, rfl, by simp⟩

theorem parted_of_spelledAll {qs : List Qualifier} {u : Text} (hqs : Qualifier.SpelledAll qs u)
    (hrest : Token.Parted rest) : Token.Parted (u ++ rest) := by
  cases hqs with
  | nil => exact hrest
  | cons hq _ =>
    obtain ⟨c, t, rfl, hc⟩ := exists_mark hq
    refine Token.parted_cons ?_ _
    rcases hc with rfl | rfl | rfl <;> decide

theorem accepts_qualifiers {qs : List Qualifier} {u : Text} (hqs : Qualifier.SpelledAll qs u)
    (hplace : d.place = .item) (hrest : Token.Parted rest)
    (h : ({ d with current := { d.current with
      qualifiers := d.current.qualifiers ++ qs } } : Draft).Accepts rest l) :
    d.Accepts (u ++ rest) l := by
  induction hqs generalizing d with
  | nil => simpa using h
  | @cons q qs t u hq hqs ih =>
    rw [List.append_assoc]
    refine accepts_qualifier hq (.inr hplace) (parted_of_spelledAll hqs hrest) (ih rfl ?_)
    simpa [withQualifier, hplace] using h

theorem accepts_compound {chains : List Chain} {compounds : List Compound} {c : Compound} {t : Text}
    (hc : c.Spelled t) (hrest : Token.Parted rest)
    (h : Accepts ⟨chains, compounds, c, none, .item⟩ rest l) :
    Accepts ⟨chains, compounds, ⟨none, []⟩, none, .start⟩ (t ++ rest) l := by
  cases hc with
  | @typed type qs t u ht hu =>
    have hparted := parted_of_spelledAll hu hrest
    have htyped := accepts_qualifiers (d := ⟨chains, compounds, ⟨some type, []⟩, none, .item⟩)
      hu rfl hrest h
    rw [List.append_assoc]
    cases ht with
    | universal =>
      exact accepts_of_move (Token.leads_mark (c := '*') (by decide) _) (fun _ _ => rfl) htyped
    | named hn => exact accepts_of_move (Token.leads_ident hn hparted) (fun _ _ => rfl) htyped
  | untyped hne hu =>
    cases hu with
    | nil => exact absurd rfl hne
    | cons hq hqs =>
      rw [List.append_assoc]
      refine accepts_qualifier hq (.inl rfl) (parted_of_spelledAll hqs hrest) ?_
      exact accepts_qualifiers hqs rfl hrest h

/-! ### Members and lists -/

theorem begun_of_compound {c : Compound} {t : Text} (hc : c.Spelled t) (rest : Text) :
    Token.Begun (t ++ rest) := by
  cases hc with
  | typed ht hu =>
    cases ht with
    | universal => exact Token.begun_cons (by decide) _
    | named hn =>
      rw [List.append_assoc]
      exact begun_of_isName hn _
  | untyped hne hu =>
    cases hu with
    | nil => exact absurd rfl hne
    | cons hq _ =>
      obtain ⟨c, t, rfl, hc⟩ := exists_mark hq
      refine Token.begun_cons ?_ _
      rcases hc with rfl | rfl | rfl <;> decide

theorem begun_of_chain {chain : Chain} {t : Text} (h : chain.Spelled t) (rest : Text) :
    Token.Begun (t ++ rest) := by
  cases h with
  | single hc => exact begun_of_compound hc rest
  | cons hc =>
    rw [List.append_assoc, List.append_assoc]
    exact begun_of_compound hc _

theorem accepts_chain {chains : List Chain} {compounds : List Compound} {chain : Chain} {t : Text}
    (h : chain.Spelled t) (hrest : Token.Parted rest)
    (haccepts : ∀ init last, compounds ++ chain = init ++ [last] →
      Accepts ⟨chains, init, last, none, .item⟩ rest l) :
    Accepts ⟨chains, compounds, ⟨none, []⟩, none, .start⟩ (t ++ rest) l := by
  unfold Chain.Spelled at h
  induction h generalizing compounds with
  | single hc => exact accepts_compound hc hrest (haccepts _ _ rfl)
  | @cons c chain t s u hc hs hu ih =>
    have hnext := @ih (compounds ++ [c]) fun init last heq =>
      haccepts init last (by simpa using heq)
    obtain ⟨hne, hb⟩ := hs
    obtain ⟨d, s, rfl⟩ := List.exists_cons_of_ne_nil hne
    have hparted := Token.parted_cons (Token.isIdentChar_of_isSpace (hb d List.mem_cons_self))
    rw [List.append_assoc, List.append_assoc]
    refine accepts_compound hc (hparted _) ?_
    exact accepts_of_step (Token.leads_space ⟨hne, hb⟩ (begun_of_chain hu rest))
      (fun _ stop => ⟨some stop, rfl⟩) hnext

theorem accepts_selector {chains : List Chain} {s : Selector} {t : Text} (h : s.Spelled t) :
    Accepts ⟨chains, [], ⟨none, []⟩, none, .start⟩ t (chains ++ s) := by
  unfold Selector.Spelled at h
  induction h generalizing chains with
  | @single chain t hchain =>
    have hnil : Token.Parted [] := fun _ hd => by cases hd
    rw [← List.append_nil t]
    refine accepts_chain hchain hnil fun init last heq => accepts_nil ?_
    rw [List.nil_append] at heq
    rw [heq]
    rfl
  | @cons chain s t g u hchain hg hu ih =>
    have hparted : Token.Parted (g ++ u) := by
      obtain ⟨b, b', rfl, hb, -⟩ := hg
      rw [List.append_assoc]
      exact parted_of_blanks hb (Token.parted_cons (by decide) _)
    have hbegun : Token.Begun u := by
      cases hu with
      | single hchain => simpa using begun_of_chain hchain []
      | cons hchain =>
        rw [List.append_assoc]
        exact begun_of_chain hchain _
    rw [List.append_assoc]
    refine accepts_chain hchain hparted fun init last heq => ?_
    rw [List.nil_append] at heq
    have hnext := @ih (chains ++ [init ++ [last]])
    rw [List.append_assoc, List.singleton_append] at hnext
    rw [heq]
    exact accepts_of_step (Token.leads_comma hg hbegun) (fun _ stop => ⟨some stop, rfl⟩) hnext

end Draft

theorem read_eq_ok_iff (size start : Nat) {t : Text} {l : Selector} :
    Draft.empty.read size (Token.all start t) = .ok l ↔ l.Spelled t := by
  constructor
  · exact Draft.spelled_empty.read
  · intro h
    exact Draft.accepts_selector h none size start

/-- **A text is read as a selector exactly if it is spelled as the grammar has it, white space at
its ends apart, and no text is spelled as two selectors.** -/
theorem parse_eq_ok_iff_spelled :
    (∀ (t : Text) (l : Selector), parse t = .ok l ↔ l.Spelled (trim t)) ∧
      ∀ (t : Text) (l l' : Selector), l.Spelled t → l'.Spelled t → l = l' := by
  refine ⟨fun t l => read_eq_ok_iff _ _, fun t l l' h h' => ?_⟩
  have hread := (read_eq_ok_iff 0 0).2 h
  rw [(read_eq_ok_iff 0 0).2 h'] at hread
  exact (Except.ok.inj hread).symm

/-- Capital letters, quotes, and blanks at every place where they may come. -/
theorem spelled_image_list :
    Selector.Spelled
        [[⟨some (.named "img".toList),
            [.cls "A".toList, .attr "data-id".toList (some "7 ]".toList)]⟩],
          [⟨none, [.id "b".toList]⟩, ⟨some .universal, []⟩]]
        (trim "\u00a0IMG.A[ Data-Id = '7 ]' ] ,\n#b\t*\x0c".toList) ∧
      ∀ l : Selector, l.Spelled (trim "\u00a0IMG.A[ Data-Id = '7 ]' ] ,\n#b\t*\x0c".toList) →
        l.length = 2 := by
  have hspelled := (parse_eq_ok_iff_spelled.1 "\u00a0IMG.A[ Data-Id = '7 ]' ] ,\n#b\t*\x0c".toList
    [[⟨some (.named "img".toList),
        [.cls "A".toList, .attr "data-id".toList (some "7 ]".toList)]⟩],
      [⟨none, [.id "b".toList]⟩, ⟨some .universal, []⟩]]).1 (by decide +kernel)
  refine ⟨hspelled, fun l hl => ?_⟩
  rw [parse_eq_ok_iff_spelled.2 _ _ _ hl hspelled]
  rfl

end RichContent.Selector
