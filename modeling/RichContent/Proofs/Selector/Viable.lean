/-
The beginnings of selectors.

Which tokens may come next depends on the place alone (`Place.next?`), and from
every place there is a way to the end of a selector (`Place.completion`). So
tokens that can be read from the beginning begin some selector, and no others
do (`viable_iff`); and they are a whole one if a compound selector is over
behind them (`complete_iff`).

That the text for this can be put together from the texts of the tokens needs
that no token goes on in the next one: a place says what may be behind the
token that leads to it (`Place.Allows`).
-/
import Mathlib.Data.List.Induction
import RichContent.Proofs.Selector.Pasted

namespace RichContent

open Text

/-! ## Texts that begin and end with something -/

/-- Neither the first nor the last character is white space. -/
structure Text.Firm (t : Text) : Prop where
  head : ∃ c rest, t = c :: rest ∧ isWhiteSpace c = false
  last : ∃ init c, t = init ++ [c] ∧ isWhiteSpace c = false

namespace Text.Firm

variable {t s u : Text}

theorem trim (h : Firm t) : Text.trim t = t := by
  obtain ⟨⟨c, rest, hhead, hc⟩, init, d, hlast, hd⟩ := h
  apply trim_eq_self
  · intro e he
    rw [hhead] at he
    cases he
    exact hc
  · intro e he
    rw [hlast, List.getLast?_concat] at he
    cases he
    exact hd

theorem append (ht : Firm t) (s : Text) (hu : Firm u) : Firm (t ++ s ++ u) := by
  obtain ⟨c, rest, rfl, hc⟩ := ht.head
  obtain ⟨init, d, rfl, hd⟩ := hu.last
  exact ⟨⟨c, rest ++ s ++ (init ++ [d]), by simp, hc⟩, c :: rest ++ s ++ init, d, by simp, hd⟩

theorem of_marks {c d : Char} (hc : isWhiteSpace c = false) (hd : isWhiteSpace d = false)
    (t : Text) : Firm (c :: t ++ [d]) :=
  ⟨⟨c, t ++ [d], rfl, hc⟩, c :: t, d, rfl, hd⟩

end Text.Firm

theorem Text.isWhiteSpace_of_isIdentChar {c : Char} (h : Token.isIdentChar c = true) :
    isWhiteSpace c = false := by
  rw [Bool.eq_false_iff]
  intro hspace
  have hunderscore : c ≠ '_' := ne_of_isWhiteSpace (by decide) hspace
  have hhyphen : c ≠ '-' := ne_of_isWhiteSpace (by decide) hspace
  simp [Token.isIdentChar, isAlphanum_of_isWhiteSpace hspace, hunderscore, hhyphen] at h

theorem Text.IsName.firm {n : Text} (h : IsName n) : Firm n := by
  obtain ⟨init, d, rfl⟩ := (List.eq_nil_or_concat n).resolve_left h.ne_nil
  obtain ⟨c, rest, heq⟩ := List.exists_cons_of_ne_nil h.ne_nil
  have hc : c ∈ init.concat d := heq ▸ List.mem_cons_self
  have hd : d ∈ init.concat d := by simp
  exact ⟨⟨c, rest, heq, isWhiteSpace_of_isIdentChar (h.plain c hc)⟩, init, d,
    List.concat_eq_append, isWhiteSpace_of_isIdentChar (h.plain d hd)⟩

theorem Qualifier.Spelled.firm {q : Qualifier} {t : Text} (h : q.Spelled t) : Firm t := by
  cases h with
  | cls hn | id hn =>
    obtain ⟨init, d, rfl, hd⟩ := hn.firm.last
    exact .of_marks (by decide) hd init
  | bare | valued => exact .of_marks (by decide) (by decide) _

theorem Qualifier.SpelledAll.firm {qs : List Qualifier} {t : Text} (h : SpelledAll qs t) :
    qs = [] ∧ t = [] ∨ Firm t := by
  induction h with
  | nil => exact .inl ⟨rfl, rfl⟩
  | cons hq _ ih =>
    right
    rcases ih with ⟨-, rfl⟩ | hfirm
    · rw [List.append_nil]
      exact hq.firm
    · simpa using hq.firm.append [] hfirm

theorem Compound.Spelled.firm {c : Compound} {t : Text} (h : c.Spelled t) : Firm t := by
  cases h with
  | @typed type qs t u ht hu =>
    have hfirm : Firm t := by
      cases ht with
      | universal => exact ⟨⟨'*', [], rfl, by decide⟩, [], '*', rfl, by decide⟩
      | named hn => exact hn.firm
    rcases hu.firm with ⟨-, rfl⟩ | hu
    · rw [List.append_nil]
      exact hfirm
    · simpa using hfirm.append [] hu
  | untyped hne hu => exact hu.firm.resolve_left fun hnil => hne hnil.1

theorem Text.Joined.firm {α : Type} {separates : Text → Prop} {spelled : α → Text → Prop}
    {l : List α} {t : Text} (h : Joined separates spelled l t)
    (hitem : ∀ a u, spelled a u → Firm u) : Firm t := by
  induction h with
  | single ha => exact hitem _ _ ha
  | cons ha _ _ ih => exact (hitem _ _ ha).append _ ih

theorem Selector.Spelled.firm {l : Selector} {t : Text} (h : l.Spelled t) : Firm t :=
  Text.Joined.firm h fun _ _ hchain => Text.Joined.firm hchain fun _ _ hc => Compound.Spelled.firm hc

namespace Token

/-! ## Tokens without their places -/

/-- The tokens of a text, without their places. -/
def kinds (t : Text) : List Token := (all 0 t).map (·.token)

theorem map_token_all (start start' : Nat) (t : Text) :
    (all start t).map (·.token) = (all start' t).map (·.token) := by
  induction start, t using all.induct generalizing start' with
  | case1 start => rw [all, all]
  | case2 start c rest ih => rw [all, all, List.map_cons, List.map_cons, ih]

theorem kinds_of_leads {token : Token} {w rest : Text} (h : token.Leads w rest) :
    kinds (w ++ rest) = token :: kinds rest := by
  rw [kinds, h 0, List.map_cons, map_token_all _ 0]
  rfl

/-- Tokens and their texts, one behind the other. -/
inductive SpelledAll : List Token → Text → Prop
  | nil : SpelledAll [] []
  | concat {tokens : List Token} {token : Token} {t w : Text} : SpelledAll tokens t →
    token.Spelled w → SpelledAll (tokens ++ [token]) (t ++ w)

theorem eq_nil_of_spelledAll {t : Text} (h : SpelledAll [] t) : t = [] := by
  generalize htokens : [] = tokens at h
  cases h with
  | nil => rfl
  | concat => simp at htokens

/-- Some of the tokens of a text from its beginning are those of a part of it. -/
theorem exists_of_all_eq_append {start : Nat} {t : Text} {before after : List Placed}
    (h : all start t = before ++ after) :
    ∃ front back, t = front ++ back ∧ SpelledAll (before.map (·.token)) front ∧
      after = all (start + front.utf8Size) back ∧
      ∀ x, before.getLast? = some x → x.slice.stop = start + front.utf8Size := by
  induction before using List.reverseRecOn generalizing after with
  | nil => exact ⟨[], t, rfl, .nil, h.symm, by simp⟩
  | append_singleton before x ih =>
    rw [List.append_assoc] at h
    obtain ⟨front, back, rfl, hfront, hafter, -⟩ := ih h
    cases back with
    | nil =>
      rw [all] at hafter
      cases hafter
    | cons c rest =>
      rw [all, List.singleton_append] at hafter
      obtain ⟨rfl, rfl⟩ := List.cons.inj hafter
      refine ⟨front ++ (next c rest).text, (next c rest).after, ?_, ?_, ?_, ?_⟩
      · rw [List.append_assoc, next_append]
      · rw [List.map_append]
        exact hfront.concat (spelled_next c rest)
      · rw [utf8Size_append, Nat.add_assoc]
      · intro y hy
        rw [List.getLast?_concat] at hy
        cases hy
        simp [Nat.add_assoc]

theorem spelledAll_kinds (t : Text) : SpelledAll (kinds t) t := by
  obtain ⟨front, back, ht, hfront, hback, -⟩ :=
    exists_of_all_eq_append (List.append_nil (all 0 t)).symm
  cases back with
  | nil =>
    rw [List.append_nil] at ht
    rw [ht] at hfront ⊢
    exact hfront
  | cons c rest =>
    rw [all] at hback
    cases hback

end Token

namespace Selector

/-! ## Places alone -/

/-- The place that a token leads to. -/
def Place.next? (p : Place) (token : Token) : Option Place :=
  ((⟨[], [], ⟨none, []⟩, none, p⟩ : Draft).step? 0 token).map (·.place)

theorem Draft.map_place_step? (d : Draft) (stop : Nat) (token : Token) :
    (d.step? stop token).map (·.place) = d.place.next? token := by
  obtain ⟨chains, compounds, current, origin, place⟩ := d
  cases place <;> cases token <;> rfl

namespace Place

/-- The place that some tokens lead to, if they can be read from here. -/
def run? (p : Place) : List Token → Option Place
  | [] => some p
  | token :: tokens => (p.next? token).bind (·.run? tokens)

theorem run?_append (p : Place) (l l' : List Token) :
    p.run? (l ++ l') = (p.run? l).bind (·.run? l') := by
  induction l generalizing p with
  | nil => rfl
  | cons token l ih =>
    rw [List.cons_append, run?, run?]
    cases p.next? token with
    | none => rfl
    | some p' => exact ih p'

theorem run?_concat {p p' : Place} {l : List Token} (h : p.run? l = some p') (token : Token) :
    p.run? (l ++ [token]) = p'.next? token := by
  rw [run?_append, h, Option.bind_some, run?]
  cases p'.next? token <;> rfl

/-- What makes a selector of what has been read up to a place. -/
def completion : Place → Text
  | start => ['*']
  | item => []
  | dot | hash => ['a']
  | bracket | bracketSpace | equals _ | equalsSpace _ => ['a', ']']
  | name _ | nameSpace _ | value .. | valueSpace .. => [']']

theorem run?_completion (p : Place) : p.run? (Token.kinds p.completion) = some item := by
  have hnil : Token.kinds [] = [] := by decide +kernel
  have hstar : Token.kinds ['*'] = [.star] := by decide +kernel
  have hname : Token.kinds ['a'] = [.ident ['a']] := by decide +kernel
  have hclosing : Token.kinds [']'] = [.closing] := by decide +kernel
  have hclosed : Token.kinds ['a', ']'] = [.ident ['a'], .closing] := by decide +kernel
  cases p with
  | start => rw [completion, hstar]; rfl
  | item => rw [completion, hnil]; rfl
  | dot | hash => rw [completion, hname]; rfl
  | bracket | bracketSpace | equals | equalsSpace => rw [completion, hclosed]; rfl
  | name | nameSpace | value | valueSpace => rw [completion, hclosing]; rfl

/-- Can the text be behind the token that leads to a place, so that the token does not go on in
it? -/
def Allows (p : Place) (t : Text) : Prop :=
  match p with
  | start | bracketSpace | nameSpace _ | equalsSpace _ | valueSpace .. => Token.Begun t
  | item | name _ | value .. => Token.Parted t
  | dot | hash | bracket | equals _ => True

theorem allows_cons {c : Char} (hident : Token.isIdentChar c = false)
    (hbegun : Token.isSpace c = false ∧ c ≠ ',') (p : Place) (t : Text) : p.Allows (c :: t) := by
  cases p with
  | start | bracketSpace | nameSpace | equalsSpace | valueSpace => exact Token.begun_cons hbegun t
  | item | name | value => exact Token.parted_cons hident t
  | dot | hash | bracket | equals => trivial

theorem allows_completion (p : Place) : p.Allows p.completion := by
  cases p with
  | item =>
    intro c hc
    cases hc
  | dot | hash | bracket | equals => trivial
  | bracketSpace | equalsSpace => exact Token.begun_cons (by decide) _
  | start | name | nameSpace | value | valueSpace => exact allows_cons (by decide) (by decide) _ _

theorem exists_steps {p p' : Place} {token : Token} (h : p.next? token = some p') :
    ∃ d d' : Draft, d.Steps 0 p token d' ∧ d'.place = p' := by
  obtain ⟨d', hstep, hplace⟩ := Option.map_eq_some_iff.1 h
  exact ⟨_, d', Draft.steps_of_step hstep, hplace⟩

section

variable {p : Place} {token : Token} {w rest : Text}

theorem leads_of_mark {c : Char} (hc : (Token.isSpace c || c == ',' || Token.isIdentChar c ||
    c == '"' || c == '\'') = false) :
    (Token.ofChar c).Leads [c] rest ∧ p.Allows ([c] ++ rest) := by
  refine ⟨Token.leads_mark hc rest, ?_⟩
  simp only [Bool.or_eq_false_iff, beq_eq_false_iff_ne] at hc
  exact allows_cons hc.1.1.2 hc.1.1.1 p rest

/-- Blanks, with a comma or without, are not part of the name in front of them. -/
theorem parted_of_separates (h : Chain.Separates w ∨ Selector.Separates w) :
    Token.Parted (w ++ rest) := by
  rcases h with ⟨hne, hb⟩ | ⟨b, b', rfl, hb, -⟩
  · obtain ⟨c, b, rfl⟩ := List.exists_cons_of_ne_nil hne
    exact Token.parted_cons (Token.isIdentChar_of_isSpace (hb c List.mem_cons_self)) _
  · rw [List.append_assoc]
    exact Draft.parted_of_blanks hb (Token.parted_cons (by decide) _)

theorem leads_of_value {v : Text} (hw : token.Spelled w)
    (htoken : token = .ident v ∨ token = .quoted v) (hrest : Token.Parted rest) :
    token.Leads w rest ∧ Token.Begun (w ++ rest) := by
  rcases htoken with rfl | rfl
  · cases hw with
    | ident hn => exact ⟨Token.leads_ident hn hrest, Draft.begun_of_isName hn rest⟩
  · cases hw with
    | quoted hq hv =>
      exact ⟨Token.leads_quoted hq hv rest, Draft.begun_of_spelledValue (.quoted hq hv) rest⟩

/-- A token that may come ends where its text does, if what is behind it may be there; and then it
may be there too. -/
theorem leads_of_next? {p' : Place} (hw : token.Spelled w) (h : p.next? token = some p')
    (hrest : p'.Allows rest) : token.Leads w rest ∧ p.Allows (w ++ rest) := by
  obtain ⟨d, d', hsteps, rfl⟩ := exists_steps h
  cases hsteps with
  | universal | dot | hash | opening | bare | valued | equals =>
    cases hw
    exact leads_of_mark (by decide)
  | type =>
    exact leads_of_value hw (.inl rfl) hrest
  | cls | id =>
    exact ⟨(leads_of_value hw (.inl rfl) hrest).1, trivial⟩
  | name hplace =>
    obtain ⟨hlead, hbegun⟩ := leads_of_value hw (.inl rfl) hrest
    rcases hplace with rfl | rfl
    · exact ⟨hlead, trivial⟩
    · exact ⟨hlead, hbegun⟩
  | value hplace htoken =>
    obtain ⟨hlead, hbegun⟩ := leads_of_value hw htoken hrest
    rcases hplace with rfl | rfl
    · exact ⟨hlead, trivial⟩
    · exact ⟨hlead, hbegun⟩
  | member =>
    cases hw with
    | comma hs => exact ⟨Token.leads_comma hs hrest, parted_of_separates (.inr hs)⟩
  | descendant | nameSpace | valueSpace =>
    cases hw with
    | space hs => exact ⟨Token.leads_space hs hrest, parted_of_separates (.inl hs)⟩
  | bracketSpace | equalsSpace =>
    cases hw with
    | space hs => exact ⟨Token.leads_space hs hrest, trivial⟩

/-- Tokens that can be read are those of their texts put together. -/
theorem kinds_append {tokens : List Token} {t : Text} (ht : Token.SpelledAll tokens t)
    (h : start.run? tokens = some p) (hrest : p.Allows rest) :
    Token.kinds (t ++ rest) = tokens ++ Token.kinds rest := by
  induction ht generalizing p rest with
  | nil => rfl
  | @concat tokens token t w _ hw ih =>
    cases hbefore : start.run? tokens with
    | none =>
      rw [run?_append, hbefore] at h
      cases h
    | some p' =>
      rw [run?_concat hbefore] at h
      obtain ⟨hlead, hallows⟩ := leads_of_next? hw h hrest
      rw [List.append_assoc, ih hbefore hallows, Token.kinds_of_leads hlead]
      simp

end

end Place

/-! ## The beginnings of selectors -/

/-- A text of these tokens is read to its end exactly if they lead to the end of a compound
selector. -/
theorem Draft.exists_read_iff (d : Draft) (size : Nat) (l : List Token.Placed) :
    (∃ s, d.read size l = .ok s) ↔ d.place.run? (l.map (·.token)) = some .item := by
  induction l generalizing d with
  | nil =>
    rw [read, List.map_nil, Place.run?]
    cases hplace : d.place <;> simp [finish?, hplace]
  | cons x l ih =>
    rw [read, List.map_cons, Place.run?, ← map_place_step? d x.slice.stop]
    cases d.step? x.slice.stop x.token with
    | none => simp
    | some d' => exact ih d'

theorem exists_parse_iff (t : Text) :
    (∃ l, parse t = .ok l) ↔ Place.start.run? (Token.kinds (trim t)) = some .item :=
  Draft.exists_read_iff ..

/-- The tokens begin a selector. -/
def Viable (tokens : List Token) : Prop :=
  ∃ u l, parse u = .ok l ∧ tokens <+: Token.kinds (trim u)

/-- The tokens are a selector. -/
def Complete (tokens : List Token) : Prop :=
  ∃ u l, parse u = .ok l ∧ tokens = Token.kinds (trim u)

theorem Viable.exists_run? {tokens : List Token} (h : Viable tokens) :
    ∃ p, Place.start.run? tokens = some p := by
  obtain ⟨u, l, hparse, more, hkinds⟩ := h
  have hrun := (exists_parse_iff u).1 ⟨l, hparse⟩
  rw [← hkinds, Place.run?_append] at hrun
  cases hplace : Place.start.run? tokens with
  | none =>
    rw [hplace] at hrun
    cases hrun
  | some p => exact ⟨p, rfl⟩

/-- What can be read is completed to a selector. -/
theorem exists_parse_of_run? {tokens : List Token} {t : Text} {p : Place}
    (ht : Token.SpelledAll tokens t) (h : Place.start.run? tokens = some p) :
    ∃ l, parse (t ++ p.completion) = .ok l ∧
      Token.kinds (trim (t ++ p.completion)) = tokens ++ Token.kinds p.completion := by
  have hkinds := Place.kinds_append ht h p.allows_completion
  have hrun : Place.start.run? (Token.kinds (t ++ p.completion)) = some .item := by
    rw [hkinds, Place.run?_append, h, Option.bind_some, p.run?_completion]
  obtain ⟨l, hl⟩ := (Draft.exists_read_iff .empty 0 (Token.all 0 (t ++ p.completion))).2 hrun
  have hspelled := (read_eq_ok_iff 0 0).1 hl
  have htrim := hspelled.firm.trim
  refine ⟨l, (read_eq_ok_iff _ _).2 ?_, by rw [htrim, hkinds]⟩
  rw [htrim]
  exact hspelled

theorem viable_iff {tokens : List Token} {t : Text} (ht : Token.SpelledAll tokens t) :
    Viable tokens ↔ ∃ p, Place.start.run? tokens = some p := by
  constructor
  · exact Viable.exists_run?
  · intro h
    obtain ⟨p, hrun⟩ := h
    obtain ⟨l, hparse, hkinds⟩ := exists_parse_of_run? ht hrun
    exact ⟨_, l, hparse, hkinds ▸ List.prefix_append _ _⟩

theorem complete_iff {tokens : List Token} {t : Text} (ht : Token.SpelledAll tokens t) :
    Complete tokens ↔ Place.start.run? tokens = some .item := by
  constructor
  · intro h
    obtain ⟨u, l, hparse, rfl⟩ := h
    exact (exists_parse_iff u).1 ⟨l, hparse⟩
  · intro h
    obtain ⟨l, hparse, hkinds⟩ := exists_parse_of_run? ht h
    have hnil : Token.kinds Place.item.completion = [] := by decide +kernel
    exact ⟨_, l, hparse, by rw [hkinds, hnil, List.append_nil]⟩

end Selector

end RichContent
