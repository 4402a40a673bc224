/-
How selectors are spelled.

The grammar is given character by character, and without the tokens that the
reader goes over: a list joins its members with commas, a member joins compound
selectors with blanks, and a compound selector is a type and qualifiers with
nothing in between. Then the tokens: what each of them looks like
(`Token.spelled_next`), and that a text which looks like one is one, if what
comes behind it does not go on with it (`Token.all_ident` and the lemmas after
it).
-/
import Mathlib.Data.List.TakeWhile
import RichContent.Selector.Grammar

namespace RichContent

open Text

/-! ## The grammar -/

namespace Text

/-- A run of blanks, which may be empty. -/
def Blanks (t : Text) : Prop := ∀ c ∈ t, Token.isSpace c = true

/-- A name: letters and digits of ASCII, `_` and `-`. -/
structure IsName (t : Text) : Prop where
  ne_nil : t ≠ []
  plain : ∀ c ∈ t, Token.isIdentChar c = true

end Text

/-- The value of an attribute, as a name or between quotes that are not in it. -/
inductive Qualifier.SpelledValue : Text → Text → Prop
  | name {v : Text} : IsName v → SpelledValue v v
  | quoted {q : Char} {v : Text} : q = '"' ∨ q = '\'' → q ∉ v → SpelledValue v (q :: v ++ [q])

/-- Names of attributes are kept in small letters, and all else as it is spelled. -/
inductive Qualifier.Spelled : Qualifier → Text → Prop
  | cls {n : Text} : IsName n → Spelled (.cls n) ('.' :: n)
  | id {n : Text} : IsName n → Spelled (.id n) ('#' :: n)
  | bare {b n b' : Text} : Blanks b → IsName n → Blanks b' →
    Spelled (.attr (lower n) none) ('[' :: b ++ n ++ b' ++ [']'])
  | valued {b n b₁ b₂ v w b₃ : Text} : Blanks b → IsName n → Blanks b₁ → Blanks b₂ →
    SpelledValue v w → Blanks b₃ →
    Spelled (.attr (lower n) (some v)) ('[' :: b ++ n ++ b₁ ++ '=' :: b₂ ++ w ++ b₃ ++ [']'])

/-- Qualifiers stand one after the other. -/
inductive Qualifier.SpelledAll : List Qualifier → Text → Prop
  | nil : SpelledAll [] []
  | cons {q : Qualifier} {qs : List Qualifier} {t u : Text} : q.Spelled t → SpelledAll qs u →
    SpelledAll (q :: qs) (t ++ u)

/-- Types are kept in small letters. -/
inductive TypeSelector.Spelled : TypeSelector → Text → Prop
  | universal : Spelled .universal ['*']
  | named {n : Text} : IsName n → Spelled (.named (lower n)) n

/-- A type, which may be left out, and then the qualifiers; not both are left out. -/
inductive Compound.Spelled : Compound → Text → Prop
  | typed {type : TypeSelector} {qs : List Qualifier} {t u : Text} : type.Spelled t →
    Qualifier.SpelledAll qs u → Spelled ⟨some type, qs⟩ (t ++ u)
  | untyped {qs : List Qualifier} {u : Text} : qs ≠ [] → Qualifier.SpelledAll qs u →
    Spelled ⟨none, qs⟩ u

/-- At least one item, with a separator between any two. -/
inductive Text.Joined {α : Type} (separates : Text → Prop) (spelled : α → Text → Prop) :
    List α → Text → Prop
  | single {a : α} {t : Text} : spelled a t → Joined separates spelled [a] t
  | cons {a : α} {l : List α} {t s u : Text} : spelled a t → separates s →
    Joined separates spelled l u → Joined separates spelled (a :: l) (t ++ s ++ u)

/-- What joins the compound selectors of a member. -/
def Chain.Separates (s : Text) : Prop := s ≠ [] ∧ Blanks s

/-- Compound selectors with blanks between them. -/
def Chain.Spelled : Chain → Text → Prop := Joined Chain.Separates Compound.Spelled

/-- What joins the members of a list: a comma that may have blanks on either side. -/
def Selector.Separates (s : Text) : Prop := ∃ b b', s = b ++ ',' :: b' ∧ Blanks b ∧ Blanks b'

/-- Members with commas between them. -/
def Selector.Spelled : Selector → Text → Prop := Joined Selector.Separates Chain.Spelled

/-! ## Joining from the left -/

namespace Text

variable {α : Type} {separates : Text → Prop} {spelled : α → Text → Prop}

/-- Items that are each followed by a separator; there may be none. -/
inductive Led (separates : Text → Prop) (spelled : α → Text → Prop) : List α → Text → Prop
  | nil : Led separates spelled [] []
  | concat {a : α} {l : List α} {t u s : Text} : Led separates spelled l t → spelled a u →
    separates s → Led separates spelled (l ++ [a]) (t ++ u ++ s)

theorem Led.join {l l' : List α} {t t' : Text} (h : Led separates spelled l t)
    (h' : Joined separates spelled l' t') : Joined separates spelled (l ++ l') (t ++ t') := by
  induction h generalizing l' t' with
  | nil => exact h'
  | concat hl ha hs ih =>
    have hjoined := ih (.cons ha hs h')
    simpa using hjoined

end Text

theorem Qualifier.SpelledAll.concat {qs : List Qualifier} {q : Qualifier} {t u : Text}
    (h : SpelledAll qs t) (hq : q.Spelled u) : SpelledAll (qs ++ [q]) (t ++ u) := by
  induction h with
  | nil => simpa using SpelledAll.cons hq .nil
  | cons hq' _ ih => simpa using SpelledAll.cons hq' ih

/-! ## Tokens as they look -/

/-- What each token looks like. -/
inductive Token.Spelled : Token → Text → Prop
  | comma {s : Text} : Selector.Separates s → Spelled .comma s
  | space {s : Text} : Chain.Separates s → Spelled .space s
  | dot : Spelled .dot ['.']
  | hash : Spelled .hash ['#']
  | star : Spelled .star ['*']
  | opening : Spelled .opening ['[']
  | closing : Spelled .closing [']']
  | equals : Spelled .equals ['=']
  | ident {n : Text} : IsName n → Spelled (.ident n) n
  | quoted {q : Char} {v : Text} : q = '"' ∨ q = '\'' → q ∉ v → Spelled (.quoted v) (q :: v ++ [q])
  | invalid {c : Char} {t : Text} : Spelled (.invalid c) t

namespace Token

theorem spelled_blankStep {c : Char} (hc : (isSpace c || c == ',') = true) (rest : Text) :
    (blankStep (c :: rest)).token.Spelled (blankStep (c :: rest)).text := by
  have hblanks (t : Text) : Blanks (t.takeWhile isSpace) := fun _ => List.mem_takeWhile_imp
  rw [blankStep]
  split
  · rename_i after hafter
    exact .comma ⟨_, _, rfl, hblanks _, hblanks _⟩
  · rename_i hafter
    have hspace : isSpace c = true := by
      by_contra hno
      obtain rfl : c = ',' := by simpa [hno] using hc
      exact hafter rest (by simp [isSpace])
    exact .space ⟨by simp [hspace], hblanks _⟩

theorem spelled_quotedStep {q : Char} (hq : q = '"' ∨ q = '\'') (rest : Text) :
    (quotedStep q rest).token.Spelled (quotedStep q rest).text := by
  rw [quotedStep]
  split
  · exact .invalid
  · rename_i d after hd
    have hhead := List.head?_dropWhile_not (· != q) rest
    rw [hd] at hhead
    obtain rfl : d = q := by simpa using hhead
    refine .quoted hq fun hmem => ?_
    have hne := List.mem_takeWhile_imp hmem
    simp at hne

theorem spelled_ofChar (c : Char) : (ofChar c).Spelled [c] := by
  unfold ofChar
  split
  · exact .dot
  · exact .hash
  · exact .star
  · exact .opening
  · exact .closing
  · exact .equals
  · exact .invalid

/-- The next token looks as it should. -/
theorem spelled_next (c : Char) (rest : Text) :
    (next c rest).token.Spelled (next c rest).text := by
  rw [next]
  split
  · rename_i hc
    exact spelled_blankStep hc rest
  · split
    · rename_i hc
      exact .ident ⟨List.cons_ne_nil _ _,
        List.forall_mem_cons.2 ⟨hc, fun _ => List.mem_takeWhile_imp⟩⟩
    · split
      · rename_i hq
        exact spelled_quotedStep (by simpa using hq) rest
      · exact spelled_ofChar c

/-! ## Texts as tokens -/

/-- The first token of a text is `t`, spelled `w`, and `rest` is behind it. -/
def Leads (t : Token) (w rest : Text) : Prop :=
  ∀ start, all start (w ++ rest) = ⟨⟨start, w⟩, t⟩ :: all (start + w.utf8Size) rest

theorem leads_of_next {t : Token} {c : Char} {w rest : Text}
    (h : next c (w ++ rest) = ⟨c :: w, t, rest⟩) : Leads t (c :: w) rest := by
  intro start
  rw [List.cons_append, all, h]

/-- No name goes on in a text. -/
def Parted (t : Text) : Prop := ∀ c, t.head? = some c → isIdentChar c = false

/-- No blanks go on in a text, and no comma comes. -/
def Begun (t : Text) : Prop := ∀ c, t.head? = some c → isSpace c = false ∧ c ≠ ','

theorem begun_cons {c : Char} (h : isSpace c = false ∧ c ≠ ',') (t : Text) : Begun (c :: t) := by
  intro d hd
  cases hd
  exact h

theorem isSpace_of_isIdentChar {c : Char} (h : isIdentChar c = true) :
    isSpace c = false ∧ c ≠ ',' := by
  refine ⟨Bool.eq_false_iff.2 fun hspace => ?_, ?_⟩
  · simp only [isSpace, Bool.or_eq_true, beq_iff_eq] at hspace
    rcases hspace with ((rfl | rfl) | rfl) | rfl <;> exact absurd h (by decide)
  · rintro rfl
    exact absurd h (by decide)

theorem isIdentChar_of_isSpace {c : Char} (h : isSpace c = true) : isIdentChar c = false := by
  rw [Bool.eq_false_iff]
  intro hident
  rw [(isSpace_of_isIdentChar hident).1] at h
  cases h

theorem parted_cons {c : Char} (h : isIdentChar c = false) (t : Text) : Parted (c :: t) := by
  intro d hd
  cases hd
  exact h

theorem stop_of_head? {p : Char → Bool} {t : Text} (h : ∀ c, t.head? = some c → p c = false) :
    t.takeWhile p = [] ∧ t.dropWhile p = t := by
  cases t with
  | nil => exact ⟨rfl, rfl⟩
  | cons c t => simp [h c rfl]

theorem leads_ident {n rest : Text} (hn : IsName n) (h : Parted rest) :
    Leads (.ident n) n rest := by
  obtain ⟨c, n, rfl⟩ := List.exists_cons_of_ne_nil hn.ne_nil
  obtain ⟨hc, hplain⟩ := List.forall_mem_cons.1 hn.plain
  obtain ⟨hspace, hcomma⟩ := isSpace_of_isIdentChar hc
  obtain ⟨htake, hdrop⟩ := stop_of_head? h
  apply leads_of_next
  rw [next, if_neg (by simp [hspace, hcomma]), if_pos hc, List.takeWhile_append_of_pos hplain,
    List.dropWhile_append_of_pos hplain, htake, hdrop, List.append_nil]

theorem leads_space {s rest : Text} (hs : Chain.Separates s) (h : Begun rest) :
    Leads .space s rest := by
  obtain ⟨hne, hblanks⟩ := hs
  obtain ⟨c, s, rfl⟩ := List.exists_cons_of_ne_nil hne
  obtain ⟨htake, hdrop⟩ := stop_of_head? fun c hc => (h c hc).1
  apply leads_of_next
  have hc := hblanks c List.mem_cons_self
  rw [next, if_pos (by simp [hc]), blankStep, ← List.cons_append,
    List.takeWhile_append_of_pos hblanks, List.dropWhile_append_of_pos hblanks, htake, hdrop,
    List.append_nil]
  cases rest with
  | nil => rfl
  | cons d rest =>
    have hd : d ≠ ',' := (h d rfl).2
    split
    · rename_i heq
      exact absurd (List.cons.inj heq).1 hd
    · rfl

theorem leads_comma {s rest : Text} (hs : Selector.Separates s) (h : Begun rest) :
    Leads .comma s rest := by
  obtain ⟨b, b', rfl, hb, hb'⟩ := hs
  obtain ⟨htake, hdrop⟩ := stop_of_head? fun c hc => (h c hc).1
  have hcomma : isSpace ',' = false := by decide
  have hstep : blankStep (b ++ ',' :: b' ++ rest) = ⟨b ++ ',' :: b', .comma, rest⟩ := by
    simp [blankStep, List.takeWhile_append_of_pos hb, List.dropWhile_append_of_pos hb,
      List.takeWhile_append_of_pos hb', List.dropWhile_append_of_pos hb', htake, hdrop, hcomma]
  cases b with
  | nil =>
    apply leads_of_next
    rw [next, if_pos (by simp)]
    exact hstep
  | cons c b =>
    apply leads_of_next
    rw [next, if_pos (by simp [hb c List.mem_cons_self])]
    exact hstep

theorem leads_quoted {q : Char} {v : Text} (hq : q = '"' ∨ q = '\'') (hv : q ∉ v) (rest : Text) :
    Leads (.quoted v) (q :: v ++ [q]) rest := by
  have hne : ∀ c ∈ v, (c != q) = true := by
    intro c hc
    simpa using fun heq : c = q => hv (heq ▸ hc)
  have hnext : next q (v ++ q :: rest) = quotedStep q (v ++ q :: rest) := by
    rcases hq with rfl | rfl <;> rfl
  refine leads_of_next (w := v ++ [q]) ?_
  rw [List.append_assoc, List.singleton_append, hnext, quotedStep,
    List.dropWhile_append_of_pos hne, List.takeWhile_append_of_pos hne]
  simp

/-- A character that begins no longer token is one by itself. -/
theorem leads_mark {c : Char}
    (h : (isSpace c || c == ',' || isIdentChar c || c == '"' || c == '\'') = false) (rest : Text) :
    Leads (ofChar c) [c] rest := by
  simp only [Bool.or_eq_false_iff] at h
  obtain ⟨⟨⟨⟨hspace, hcomma⟩, hident⟩, hdouble⟩, hsingle⟩ := h
  apply leads_of_next
  simp [next, hspace, hcomma, hident, hdouble, hsingle]

end Token

end RichContent
