/-
Names that are put into the text of a selector.

Nothing is written differently there, so a name may end too early: where a part
of it is a name, and behind that is something that can stand behind the name of
a class (`endsClass`) or of an attribute (`endsAttribute`). A name that is not
cut short like this is read as one name or makes the text unreadable
(`read_pasted`), so a selector made from such names means what it was made for.
-/
import RichContent.Proofs.Selector.Acceptance

namespace RichContent

open Text

/-! ## Texts that are trimmed already -/

theorem Text.trim_eq_self {t : Text} (hhead : ∀ c, t.head? = some c → isWhiteSpace c = false)
    (hlast : ∀ c, t.getLast? = some c → isWhiteSpace c = false) : trim t = t := by
  have hfront : t.dropWhile isWhiteSpace = t := (Token.stop_of_head? hhead).2
  have hback : t.reverse.dropWhile isWhiteSpace = t.reverse := by
    refine (Token.stop_of_head? fun c hc => hlast c ?_).2
    rwa [List.head?_reverse] at hc
  rw [trim, hfront, trimEnd, trimEndWhere, hback, List.reverse_reverse]

namespace Selector

/-- Does the character end a class name, so that the selector goes on? -/
def endsClass (c : Char) : Bool :=
  Token.isSpace c || c == ',' || c == '.' || c == '#' || c == '['

/-- Does the character end the name of an attribute, so that the selector goes on? -/
def endsAttribute (c : Char) : Bool := Token.isSpace c || c == '=' || c == ']'

/-- Does the text begin with a name that ends before the text does? -/
def CutShort (ends : Char → Bool) (t : Text) : Prop :=
  ∃ name c rest, t = name ++ c :: rest ∧ IsName name ∧ ends c = true

theorem not_cutShort {ends : Char → Bool} {t : Text} (h : t.any ends = false) :
    ¬ CutShort ends t := by
  rintro ⟨name, c, rest, rfl, -, hends⟩
  rw [List.any_append, List.any_cons, hends] at h
  simp at h

theorem endsClass_eq_false {c : Char} : endsClass c = false ↔
    Token.isSpace c = false ∧ c ≠ ',' ∧ c ≠ '.' ∧ c ≠ '#' ∧ c ≠ '[' := by
  simp [endsClass, and_assoc]

theorem endsAttribute_eq_false {c : Char} :
    endsAttribute c = false ↔ Token.isSpace c = false ∧ c ≠ '=' ∧ c ≠ ']' := by
  simp [endsAttribute, and_assoc]

namespace Draft

/-! ## What cannot come at a place -/

/-- No token that begins with the character can come. -/
def Refuses (d : Draft) (c : Char) : Prop :=
  ∀ rest stop, d.step? stop (Token.next c rest).token = none

variable {d : Draft} {c : Char} {l : Selector} {size start : Nat} {rest : Text}

theorem read_of_refuses (h : d.Refuses c) : d.read size (Token.all start (c :: rest)) ≠ .ok l := by
  rw [Token.all, read, h]
  simp

theorem read_nil (h : d.finish? = none) : d.read size (Token.all start []) ≠ .ok l := by
  rw [Token.all, read, h]
  simp

theorem read_of_leads {d' : Draft} {token : Token} {w : Text} (hlead : token.Leads w rest)
    (hstep : ∀ stop, d.step? stop token = some d') :
    d.read size (Token.all start (w ++ rest)) =
      d'.read size (Token.all (start + w.utf8Size) rest) := by
  rw [hlead, read, hstep]

theorem exists_spelled_next (c : Char) (rest : Text) :
    ∃ w, (Token.next c rest).token.Spelled (c :: w) := by
  obtain ⟨d, w, htext⟩ := List.exists_cons_of_ne_nil (Token.next_text_ne_nil c rest)
  have happ := Token.next_append c rest
  rw [htext] at happ
  obtain rfl := (List.cons.inj happ).1
  exact ⟨w, htext ▸ Token.spelled_next d rest⟩

theorem not_isName {w : Text} (hident : Token.isIdentChar c = false) : ¬ IsName (c :: w) := by
  intro h
  rw [h.plain c List.mem_cons_self] at hident
  cases hident

theorem not_separates {w : Text} (hspace : Token.isSpace c = false) :
    ¬ Chain.Separates (c :: w) := by
  intro h
  rw [h.2 c List.mem_cons_self] at hspace
  cases hspace

/-- Members are separated by a comma, which may have blanks in front. -/
theorem not_separates_members {w : Text} (hspace : Token.isSpace c = false) (hcomma : c ≠ ',') :
    ¬ Selector.Separates (c :: w) := by
  rintro ⟨b, b', heq, hb, -⟩
  cases b with
  | nil => exact hcomma (List.cons.inj heq).1
  | cons e b =>
    obtain rfl := (List.cons.inj heq).1
    rw [hb c List.mem_cons_self] at hspace
    cases hspace

/-- A character is refused where every token that can come is spelled with another one in front. -/
theorem refuses_of_steps {place : Place} (hplace : d.place = place)
    (h : ∀ token w stop d', token.Spelled (c :: w) → ¬ d.Steps stop place token d') :
    d.Refuses c := by
  intro rest stop
  obtain ⟨w, hw⟩ := exists_spelled_next c rest
  refine Option.eq_none_iff_forall_ne_some.2 fun d' hstep => ?_
  exact h _ w stop d' hw (hplace ▸ steps_of_step hstep)

theorem refuses_dot (hplace : d.place = .dot) (hident : Token.isIdentChar c = false) :
    d.Refuses c := by
  refine refuses_of_steps hplace fun token w stop d' hw hsteps => ?_
  cases hsteps
  case cls =>
    cases hw with
    | ident hn => exact not_isName hident hn
  all_goals simp_all

theorem refuses_item (hplace : d.place = .item) (hident : Token.isIdentChar c = false)
    (hends : endsClass c = false) : d.Refuses c := by
  obtain ⟨hspace, hcomma, hdot, hhash, hopening⟩ := endsClass_eq_false.1 hends
  refine refuses_of_steps hplace fun token w stop d' hw hsteps => ?_
  cases hsteps
  case descendant =>
    cases hw with
    | space hs => exact not_separates hspace hs
  case member =>
    cases hw with
    | comma hs => exact not_separates_members hspace hcomma hs
  case dot =>
    cases hw
    exact hdot rfl
  case hash =>
    cases hw
    exact hhash rfl
  case opening =>
    cases hw
    exact hopening rfl
  all_goals simp_all

theorem refuses_bracket (hplace : d.place = .bracket) (hident : Token.isIdentChar c = false)
    (hspace : Token.isSpace c = false) : d.Refuses c := by
  refine refuses_of_steps hplace fun token w stop d' hw hsteps => ?_
  cases hsteps
  case bracketSpace =>
    cases hw with
    | space hs => exact not_separates hspace hs
  case name =>
    cases hw with
    | ident hn => exact not_isName hident hn
  all_goals simp_all

theorem refuses_name {n : Text} (hplace : d.place = .name n) (hends : endsAttribute c = false) :
    d.Refuses c := by
  obtain ⟨hspace, hequals, hclosing⟩ := endsAttribute_eq_false.1 hends
  refine refuses_of_steps hplace fun token w stop d' hw hsteps => ?_
  cases hsteps
  case nameSpace =>
    cases hw with
    | space hs => exact not_separates hspace hs
  case equals =>
    cases hw
    exact hequals rfl
  case bare =>
    cases hw
    exact hclosing rfl
  all_goals simp_all

/-! ## A name that is put in -/

/-- Where a name has to come and nothing else can come, a text that is not cut short is read as one
name. -/
theorem read_pasted (behind : Text → Draft) {ends : Char → Bool} {name tail : Text}
    (hstep : ∀ stop n, d.step? stop (.ident n) = some (behind n)) (hfinish : d.finish? = none)
    (hhere : ∀ c r, name = c :: r → Token.isIdentChar c = false → d.Refuses c)
    (hbehind : ∀ n c, Token.isIdentChar c = false → ends c = false → (behind n).Refuses c)
    (hname : ¬ CutShort ends name)
    (htail : ∀ c r, tail = c :: r → Token.isIdentChar c = false ∧ d.Refuses c)
    (h : d.read size (Token.all start (name ++ tail)) = .ok l) :
    ∃ start', (behind name).read size (Token.all start' tail) = .ok l := by
  have hplain (c : Char) (hc : c ∈ name.takeWhile Token.isIdentChar) :
      Token.isIdentChar c = true := List.mem_takeWhile_imp hc
  have hsplit := List.takeWhile_append_dropWhile (p := Token.isIdentChar) (l := name)
  have hparted : Token.Parted tail := by
    intro c hc
    obtain ⟨r, rfl⟩ := List.head?_eq_some_iff.1 hc
    exact (htail c r rfl).1
  generalize name.takeWhile Token.isIdentChar = n at hplain hsplit
  cases hdrop : name.dropWhile Token.isIdentChar with
  | nil =>
    rw [hdrop, List.append_nil] at hsplit
    subst hsplit
    by_cases hnil : n = []
    · subst hnil
      cases tail with
      | nil => exact absurd h (read_nil hfinish)
      | cons c r => exact absurd h (read_of_refuses (htail c r rfl).2)
    · rw [read_of_leads (Token.leads_ident ⟨hnil, hplain⟩ hparted) fun stop => hstep stop n] at h
      exact ⟨_, h⟩
  | cons c r =>
    -- another part would begin at `c`
    exfalso
    have hc : Token.isIdentChar c = false := by
      have hhead := List.head?_dropWhile_not Token.isIdentChar name
      rw [hdrop] at hhead
      simpa using hhead
    rw [hdrop] at hsplit
    by_cases hnil : n = []
    · subst hnil
      rw [← hsplit] at h
      exact read_of_refuses (hhere c r hsplit.symm hc) h
    · have hends : ends c = false :=
        Bool.eq_false_iff.2 fun hends => hname ⟨n, c, r, hsplit.symm, ⟨hnil, hplain⟩, hends⟩
      rw [← hsplit, List.append_assoc, List.cons_append] at h
      rw [read_of_leads (Token.leads_ident ⟨hnil, hplain⟩ (Token.parted_cons hc _))
        fun stop => hstep stop n] at h
      exact read_of_refuses (hbehind n c hc hends) h

section

variable {name key tail : Text}

theorem read_class (hbegin : d.place = .start ∨ d.place = .item)
    (hname : ¬ CutShort endsClass name)
    (htail : ∀ c r, tail = c :: r → Token.isIdentChar c = false)
    (h : d.read size (Token.all start ('.' :: name ++ tail)) = .ok l) :
    ∃ start', (d.withQualifier (.cls name)).read size (Token.all start' tail) = .ok l := by
  have hdot (stop : Nat) : d.step? stop .dot = some (d.moveTo .dot) := by
    rcases hbegin with hplace | hplace <;> simp [step?, hplace, beginQualifier?]
  have happ : '.' :: name ++ tail = ['.'] ++ (name ++ tail) := rfl
  rw [happ, read_of_leads (Token.leads_mark (c := '.') (by decide) _) hdot] at h
  exact read_pasted (fun n => d.withQualifier (.cls n)) (fun _ _ => rfl) rfl
    (fun c _ _ hc => refuses_dot rfl hc) (fun n c hc hends => refuses_item rfl hc hends) hname
    (fun c r ht => ⟨htail c r ht, refuses_dot rfl (htail c r ht)⟩) h

theorem read_attribute (hplace : d.place = .item)
    (hkey : ¬ CutShort endsAttribute key)
    (hhead : ∀ c r, key = c :: r → Token.isSpace c = false)
    (h : d.read size (Token.all start ('[' :: key ++ [']'])) = .ok l) :
    (d.withQualifier (.attr (lower key) none)).finish? = some l := by
  have hopening (stop : Nat) : d.step? stop .opening = some (d.moveTo .bracket) := by
    simp [step?, hplace, beginQualifier?]
  have hclosing : Token.isIdentChar ']' = false ∧ Token.isSpace ']' = false := by decide
  have happ : '[' :: key ++ [']'] = ['['] ++ (key ++ [']']) := rfl
  rw [happ, read_of_leads (Token.leads_mark (c := '[') (by decide) _) hopening] at h
  obtain ⟨start', h⟩ := read_pasted (fun n => d.moveTo (.name n)) (fun _ _ => rfl) rfl
    (fun c r hr hc => refuses_bracket rfl hc (hhead c r hr))
    (fun n c _ hends => refuses_name rfl hends) hkey
    (fun c r ht => by
      cases ht
      exact ⟨hclosing.1, refuses_bracket rfl hclosing.1 hclosing.2⟩) h
  rw [← List.append_nil [']'], read_of_leads (Token.leads_mark (c := ']') (by decide) [])
    (fun _ => rfl), Token.all, read] at h
  split at h
  · rename_i s hfinish
    cases h
    exact hfinish
  · cases h

end

end Draft

/-! ## Selectors made from names -/

section

variable {name key : Text} {l : Selector}

theorem parse_class (hname : ¬ CutShort endsClass name)
    (hlast : ∀ c, name.getLast? = some c → isWhiteSpace c = false)
    (h : parse ('.' :: name) = .ok l) : l = [[⟨none, [.cls name]⟩]] := by
  have htrim : trim ('.' :: name) = '.' :: name := by
    refine trim_eq_self (fun c hc => by cases hc; decide) fun c hc => ?_
    rw [List.getLast?_cons] at hc
    cases hlast' : name.getLast? with
    | none =>
      rw [hlast'] at hc
      cases hc
      decide
    | some d =>
      rw [hlast'] at hc
      cases hc
      exact hlast _ hlast'
  rw [parse, htrim, ← List.append_nil ('.' :: name)] at h
  obtain ⟨start, h⟩ := Draft.read_class (.inl rfl) hname (fun c r hr => by cases hr) h
  rw [Token.all, Draft.read] at h
  exact (Except.ok.inj h).symm

theorem parse_classAttribute {type : Option TypeSelector} {lead : Text}
    (hlead : type = none ∧ lead = [] ∨ type = some (.named "img".toList) ∧ lead = "img".toList)
    (hname : ¬ CutShort endsClass name)
    (hkey : ¬ CutShort endsAttribute key)
    (hhead : ∀ c r, key = c :: r → Token.isSpace c = false)
    (h : parse (lead ++ ('.' :: name ++ ('[' :: key ++ [']']))) = .ok l) :
    l = [[⟨type, [.cls name, .attr (lower key) none]⟩]] := by
  have htrim : trim (lead ++ ('.' :: name ++ ('[' :: key ++ [']']))) =
      lead ++ ('.' :: name ++ ('[' :: key ++ [']'])) := by
    refine trim_eq_self (fun c hc => ?_) fun c hc => ?_
    · rcases hlead with ⟨-, rfl⟩ | ⟨-, rfl⟩
      · cases hc
        decide
      · cases hc
        decide
    · have hlast : (lead ++ ('.' :: name ++ ('[' :: key ++ [']']))).getLast? = some ']' := by
        rw [← List.append_assoc, ← List.append_assoc, List.getLast?_concat]
      rw [hlast] at hc
      cases hc
      decide
  have hopening : ∀ c r, '[' :: key ++ [']'] = c :: r → Token.isIdentChar c = false := by
    intro c r hr
    cases hr
    decide
  rw [parse, htrim] at h
  rcases hlead with ⟨rfl, rfl⟩ | ⟨rfl, rfl⟩
  · obtain ⟨start, h⟩ := Draft.read_class (.inl rfl) hname hopening h
    exact (Option.some.inj (Draft.read_attribute rfl hkey hhead h)).symm
  · have himg : IsName "img".toList := ⟨by decide, List.all_eq_true.1 (by decide)⟩
    have hparted : Token.Parted ('.' :: name ++ ('[' :: key ++ [']'])) :=
      Token.parted_cons (by decide) _
    rw [Draft.read_of_leads (Token.leads_ident himg hparted) (fun _ => rfl)] at h
    obtain ⟨start, h⟩ := Draft.read_class (.inr rfl) hname hopening h
    exact (Option.some.inj (Draft.read_attribute rfl hkey hhead h)).symm

end

end Selector

end RichContent
