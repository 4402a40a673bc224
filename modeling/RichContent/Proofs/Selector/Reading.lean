/-
What the reader of selectors accepts is spelled.

What has been read at any moment is spelled: the complete members and compound
selectors with what separates them, the current compound selector, and the
beginning of one more part of it (`Draft.Spelled`). Every token that may come
(`Draft.Steps`) keeps this (`Draft.Spelled.step`), so it holds when the text is
at its end.
-/
import RichContent.Proofs.Selector.Spelling

namespace RichContent

open Text

/-! ## What a token does -/

namespace Selector.Draft

/-- What a draft becomes at a place with a token: one constructor for every way to go on. -/
inductive Steps (d : Draft) (stop : Nat) : Place → Token → Draft → Prop
  | universal : Steps d stop .start .star (d.withType .universal)
  | type {n : Text} : Steps d stop .start (.ident n) (d.withType (.named (lower n)))
  | dot {place : Place} : place = .start ∨ place = .item →
    Steps d stop place .dot (d.moveTo .dot)
  | hash {place : Place} : place = .start ∨ place = .item →
    Steps d stop place .hash (d.moveTo .hash)
  | opening {place : Place} : place = .start ∨ place = .item →
    Steps d stop place .opening (d.moveTo .bracket)
  | descendant : Steps d stop .item .space (d.nextCompound stop)
  | member : Steps d stop .item .comma (d.nextChain stop)
  | cls {n : Text} : Steps d stop .dot (.ident n) (d.withQualifier (.cls n))
  | id {n : Text} : Steps d stop .hash (.ident n) (d.withQualifier (.id n))
  | bracketSpace : Steps d stop .bracket .space (d.moveTo .bracketSpace)
  | name {place : Place} {n : Text} : place = .bracket ∨ place = .bracketSpace →
    Steps d stop place (.ident n) (d.moveTo (.name n))
  | nameSpace {n : Text} : Steps d stop (.name n) .space (d.moveTo (.nameSpace n))
  | equals {place : Place} {n : Text} : place = .name n ∨ place = .nameSpace n →
    Steps d stop place .equals (d.moveTo (.equals n))
  | bare {place : Place} {n : Text} : place = .name n ∨ place = .nameSpace n →
    Steps d stop place .closing (d.withQualifier (.attr (lower n) none))
  | equalsSpace {n : Text} : Steps d stop (.equals n) .space (d.moveTo (.equalsSpace n))
  | value {place : Place} {token : Token} {n v : Text} :
    place = .equals n ∨ place = .equalsSpace n → token = .ident v ∨ token = .quoted v →
    Steps d stop place token (d.moveTo (.value n v))
  | valueSpace {n v : Text} : Steps d stop (.value n v) .space (d.moveTo (.valueSpace n v))
  | valued {place : Place} {n v : Text} : place = .value n v ∨ place = .valueSpace n v →
    Steps d stop place .closing (d.withQualifier (.attr (lower n) (some v)))

theorem steps_of_step {d d' : Draft} {stop : Nat} {token : Token}
    (h : d.step? stop token = some d') : d.Steps stop d.place token d' := by
  cases hplace : d.place <;> cases token <;>
    simp only [step?, hplace, beginQualifier?, Option.some.injEq, reduceCtorEq] at h
  all_goals
    subst h
    constructor
    all_goals simp

end Selector.Draft

/-! ## What is not complete -/

/-- A compound selector so far: it may have neither a type nor qualifiers yet. -/
inductive Compound.Begun : Compound → Text → Prop
  | typed {type : TypeSelector} {qs : List Qualifier} {t u : Text} : type.Spelled t →
    Qualifier.SpelledAll qs u → Begun ⟨some type, qs⟩ (t ++ u)
  | untyped {qs : List Qualifier} {u : Text} : Qualifier.SpelledAll qs u → Begun ⟨none, qs⟩ u

theorem Compound.Begun.spelled {c : Compound} {t : Text} (h : Begun c t) (hne : c ≠ ⟨none, []⟩) :
    c.Spelled t := by
  cases h with
  | typed ht hu => exact .typed ht hu
  | untyped hu => exact .untyped (fun hqs => hne (by rw [hqs])) hu

theorem Compound.Begun.withQualifier {c : Compound} {t u : Text} {q : Qualifier} (h : Begun c t)
    (hq : q.Spelled u) : Begun { c with qualifiers := c.qualifiers ++ [q] } (t ++ u) := by
  cases h with
  | typed ht hu =>
    rw [List.append_assoc]
    exact .typed ht (hu.concat hq)
  | untyped hu => exact .untyped (hu.concat hq)

namespace Selector

/-- What has been spelled of a part that is not complete at a place. -/
inductive Place.Opened : Place → Text → Prop
  | start : Opened .start []
  | item : Opened .item []
  | dot : Opened .dot ['.']
  | hash : Opened .hash ['#']
  | bracket : Opened .bracket ['[']
  | bracketSpace {b : Text} : Blanks b → Opened .bracketSpace ('[' :: b)
  | name {b n : Text} : Blanks b → IsName n → Opened (.name n) ('[' :: b ++ n)
  | nameSpace {b n b' : Text} : Blanks b → IsName n → Blanks b' →
    Opened (.nameSpace n) ('[' :: b ++ n ++ b')
  | equals {b n b₁ : Text} : Blanks b → IsName n → Blanks b₁ →
    Opened (.equals n) ('[' :: b ++ n ++ b₁ ++ ['='])
  | equalsSpace {b n b₁ b₂ : Text} : Blanks b → IsName n → Blanks b₁ → Blanks b₂ →
    Opened (.equalsSpace n) ('[' :: b ++ n ++ b₁ ++ '=' :: b₂)
  | value {b n b₁ b₂ v w : Text} : Blanks b → IsName n → Blanks b₁ → Blanks b₂ →
    Qualifier.SpelledValue v w → Opened (.value n v) ('[' :: b ++ n ++ b₁ ++ '=' :: b₂ ++ w)
  | valueSpace {b n b₁ b₂ v w b₃ : Text} : Blanks b → IsName n → Blanks b₁ → Blanks b₂ →
    Qualifier.SpelledValue v w → Blanks b₃ →
    Opened (.valueSpace n v) ('[' :: b ++ n ++ b₁ ++ '=' :: b₂ ++ w ++ b₃)

namespace Place.Opened

theorem blanks_nil : Blanks [] := fun _ h => absurd h List.not_mem_nil

variable {b n v t u w : Text}

/-! Blanks that come at a place. -/

theorem toBracketSpace (h : Opened .bracket t) (hb : Blanks b) :
    Opened .bracketSpace (t ++ b) := by
  cases h
  exact .bracketSpace hb

theorem toNameSpace (h : Opened (.name n) t) (hb : Blanks b) : Opened (.nameSpace n) (t ++ b) := by
  cases h with
  | name hb₀ hn => exact .nameSpace hb₀ hn hb

theorem toEqualsSpace (h : Opened (.equals n) t) (hb : Blanks b) :
    Opened (.equalsSpace n) (t ++ b) := by
  cases h with
  | equals hb₀ hn hb₁ => simpa using equalsSpace hb₀ hn hb₁ hb

theorem toValueSpace (h : Opened (.value n v) t) (hb : Blanks b) :
    Opened (.valueSpace n v) (t ++ b) := by
  cases h with
  | value hb₀ hn hb₁ hb₂ hv => exact .valueSpace hb₀ hn hb₁ hb₂ hv hb

/-! Blanks that may come at a place need not come. -/

theorem bracketSpace_of_bracket (h : Opened .bracket t) : Opened .bracketSpace t := by
  simpa using h.toBracketSpace blanks_nil

theorem nameSpace_of_name (h : Opened (.name n) t) : Opened (.nameSpace n) t := by
  simpa using h.toNameSpace blanks_nil

theorem equalsSpace_of_equals (h : Opened (.equals n) t) : Opened (.equalsSpace n) t := by
  simpa using h.toEqualsSpace blanks_nil

theorem valueSpace_of_value (h : Opened (.value n v) t) : Opened (.valueSpace n v) t := by
  simpa using h.toValueSpace blanks_nil

/-! What comes next inside of brackets. -/

theorem toName (h : Opened .bracketSpace t) (hn : IsName n) : Opened (.name n) (t ++ n) := by
  cases h with
  | bracketSpace hb => exact .name hb hn

theorem toEquals (h : Opened (.nameSpace n) t) : Opened (.equals n) (t ++ ['=']) := by
  cases h with
  | nameSpace hb hn hb' => exact .equals hb hn hb'

theorem toValue (h : Opened (.equalsSpace n) t) (hv : Qualifier.SpelledValue v w) :
    Opened (.value n v) (t ++ w) := by
  cases h with
  | equalsSpace hb hn hb₁ hb₂ => exact .value hb hn hb₁ hb₂ hv

theorem toBare (h : Opened (.nameSpace n) t) :
    (Qualifier.attr (lower n) none).Spelled (t ++ [']']) := by
  cases h with
  | nameSpace hb hn hb' => exact .bare hb hn hb'

theorem toValued (h : Opened (.valueSpace n v) t) :
    (Qualifier.attr (lower n) (some v)).Spelled (t ++ [']']) := by
  cases h with
  | valueSpace hb hn hb₁ hb₂ hv hb₃ => exact .valued hb hn hb₁ hb₂ hv hb₃

end Place.Opened

namespace Draft

/-- The text is what has been read. A compound selector has begun only behind its first part. -/
structure Spelled (d : Draft) (t : Text) : Prop where
  parts : ∃ t₁ t₂ t₃ t₄, t = t₁ ++ t₂ ++ t₃ ++ t₄ ∧
    Led Selector.Separates Chain.Spelled d.chains t₁ ∧
    Led Chain.Separates Compound.Spelled d.compounds t₂ ∧
    Compound.Begun d.current t₃ ∧ d.place.Opened t₄
  start : d.place = .start → d.current = ⟨none, []⟩
  item : d.place = .item → d.current ≠ ⟨none, []⟩

variable {d d' : Draft} {t w : Text} {token : Token} {stop : Nat}

theorem spelled_empty : empty.Spelled [] :=
  ⟨⟨[], [], [], [], rfl, .nil, .nil, .untyped .nil, .start⟩, fun _ => rfl, by rintro ⟨⟩⟩

theorem Spelled.moveTo (h : d.Spelled t) {here place : Place} (hhere : d.place = here)
    (hplace : ∀ u, here.Opened u → place.Opened (u ++ w)) (hstart : place ≠ .start)
    (hitem : place ≠ .item) : (d.moveTo place).Spelled (t ++ w) := by
  subst hhere
  obtain ⟨⟨t₁, t₂, t₃, t₄, rfl, h₁, h₂, h₃, h₄⟩, -, -⟩ := h
  refine ⟨⟨t₁, t₂, t₃, t₄ ++ w, by simp, h₁, h₂, h₃, hplace _ h₄⟩, ?_, ?_⟩
  · exact fun heq => absurd heq hstart
  · exact fun heq => absurd heq hitem

theorem Spelled.withQualifier (h : d.Spelled t) {here : Place} (hhere : d.place = here)
    {q : Qualifier} (hq : ∀ u, here.Opened u → q.Spelled (u ++ w)) :
    (d.withQualifier q).Spelled (t ++ w) := by
  subst hhere
  obtain ⟨⟨t₁, t₂, t₃, t₄, rfl, h₁, h₂, h₃, h₄⟩, -, -⟩ := h
  refine ⟨⟨t₁, t₂, t₃ ++ (t₄ ++ w), [], by simp, h₁, h₂, h₃.withQualifier (hq _ h₄), .item⟩,
    by rintro ⟨⟩, ?_⟩
  rintro - heq
  have hqs := congrArg Compound.qualifiers heq
  simp [Draft.withQualifier] at hqs

theorem Spelled.withType (h : d.Spelled t) (hplace : d.place = .start) {type : TypeSelector}
    (htype : type.Spelled w) : (d.withType type).Spelled (t ++ w) := by
  obtain ⟨⟨t₁, t₂, t₃, t₄, rfl, h₁, h₂, h₃, h₄⟩, hstart, -⟩ := h
  have hcurrent := hstart hplace
  rw [hcurrent] at h₃
  rw [hplace] at h₄
  cases h₄
  cases h₃ with
  | untyped hu =>
    cases hu
    have hbegun : Compound.Begun ⟨some type, []⟩ (w ++ []) := .typed htype .nil
    refine ⟨⟨t₁, t₂, w ++ [], [], by simp, h₁, h₂, ?_, .item⟩, by rintro ⟨⟩, ?_⟩
    · simpa [Draft.withType, hcurrent] using hbegun
    · rintro - heq
      have htype := congrArg Compound.type heq
      simp [Draft.withType] at htype

theorem Spelled.nextCompound (h : d.Spelled t) (hplace : d.place = .item)
    (hw : Chain.Separates w) : (d.nextCompound stop).Spelled (t ++ w) := by
  obtain ⟨⟨t₁, t₂, t₃, t₄, rfl, h₁, h₂, h₃, h₄⟩, -, hitem⟩ := h
  rw [hplace] at h₄
  cases h₄
  refine ⟨⟨t₁, t₂ ++ t₃ ++ w, [], [], by simp, h₁, ?_, .untyped .nil, .start⟩, fun _ => rfl,
    by rintro ⟨⟩⟩
  exact .concat h₂ (h₃.spelled (hitem hplace)) hw

/-- The member that ends with the current compound selector. -/
theorem spelled_chain {chain : List Compound} {c : Compound} {t u : Text}
    (h : Led Chain.Separates Compound.Spelled chain t) (hc : c.Spelled u) :
    Chain.Spelled (chain ++ [c]) (t ++ u) := h.join (.single hc)

theorem Spelled.nextChain (h : d.Spelled t) (hplace : d.place = .item)
    (hw : Selector.Separates w) : (d.nextChain stop).Spelled (t ++ w) := by
  obtain ⟨⟨t₁, t₂, t₃, t₄, rfl, h₁, h₂, h₃, h₄⟩, -, hitem⟩ := h
  rw [hplace] at h₄
  cases h₄
  refine ⟨⟨t₁ ++ (t₂ ++ t₃) ++ w, [], [], [], by simp, ?_, .nil, .untyped .nil, .start⟩,
    fun _ => rfl, by rintro ⟨⟩⟩
  exact .concat h₁ (spelled_chain h₂ (h₃.spelled (hitem hplace))) hw

/-- A mark that begins a qualifier. -/
theorem Spelled.begin (h : d.Spelled t) {c : Char} {place : Place}
    (hbegin : d.place = .start ∨ d.place = .item) (hopened : place.Opened [c]) :
    (d.moveTo place).Spelled (t ++ [c]) := by
  have hne : place ≠ .start ∧ place ≠ .item := by
    constructor
    all_goals
      rintro rfl
      cases hopened
  rcases hbegin with hplace | hplace
  all_goals
    refine h.moveTo hplace (fun u hu => ?_) hne.1 hne.2
    cases hu
    exact hopened

/-- **What has been read stays spelled with one more token.** -/
theorem Spelled.step (h : d.Spelled t) (hw : token.Spelled w)
    (hstep : d.step? stop token = some d') : d'.Spelled (t ++ w) := by
  have hsteps := steps_of_step hstep
  generalize hplace : d.place = place at hsteps
  cases hsteps with
  | universal =>
    cases hw
    exact h.withType hplace .universal
  | type =>
    cases hw with
    | ident hn => exact h.withType hplace (.named hn)
  | dot hbegin =>
    cases hw
    exact h.begin (hplace ▸ hbegin) .dot
  | hash hbegin =>
    cases hw
    exact h.begin (hplace ▸ hbegin) .hash
  | opening hbegin =>
    cases hw
    exact h.begin (hplace ▸ hbegin) .bracket
  | descendant =>
    cases hw with
    | space hs => exact h.nextCompound hplace hs
  | member =>
    cases hw with
    | comma hs => exact h.nextChain hplace hs
  | cls =>
    cases hw with
    | ident hn =>
      refine h.withQualifier hplace fun u hu => ?_
      cases hu
      exact .cls hn
  | id =>
    cases hw with
    | ident hn =>
      refine h.withQualifier hplace fun u hu => ?_
      cases hu
      exact .id hn
  | bracketSpace =>
    cases hw with
    | space hs =>
      exact h.moveTo hplace (fun u hu => hu.toBracketSpace hs.2) (by rintro ⟨⟩) (by rintro ⟨⟩)
  | name hbracket =>
    cases hw with
    | ident hn =>
      refine h.moveTo hplace (fun u hu => ?_) (by rintro ⟨⟩) (by rintro ⟨⟩)
      rcases hbracket with rfl | rfl
      · exact hu.bracketSpace_of_bracket.toName hn
      · exact hu.toName hn
  | nameSpace =>
    cases hw with
    | space hs =>
      exact h.moveTo hplace (fun u hu => hu.toNameSpace hs.2) (by rintro ⟨⟩) (by rintro ⟨⟩)
  | equals hname =>
    cases hw
    refine h.moveTo hplace (fun u hu => ?_) (by rintro ⟨⟩) (by rintro ⟨⟩)
    rcases hname with rfl | rfl
    · exact hu.nameSpace_of_name.toEquals
    · exact hu.toEquals
  | bare hname =>
    cases hw
    refine h.withQualifier hplace fun u hu => ?_
    rcases hname with rfl | rfl
    · exact hu.nameSpace_of_name.toBare
    · exact hu.toBare
  | equalsSpace =>
    cases hw with
    | space hs =>
      exact h.moveTo hplace (fun u hu => hu.toEqualsSpace hs.2) (by rintro ⟨⟩) (by rintro ⟨⟩)
  | @value _ _ n v hequals htoken =>
    have hv : Qualifier.SpelledValue v w := by
      rcases htoken with rfl | rfl
      · cases hw with
        | ident hn => exact .name hn
      · cases hw with
        | quoted hq hv => exact .quoted hq hv
    refine h.moveTo hplace (fun u hu => ?_) (by rintro ⟨⟩) (by rintro ⟨⟩)
    rcases hequals with rfl | rfl
    · exact hu.equalsSpace_of_equals.toValue hv
    · exact hu.toValue hv
  | valueSpace =>
    cases hw with
    | space hs =>
      exact h.moveTo hplace (fun u hu => hu.toValueSpace hs.2) (by rintro ⟨⟩) (by rintro ⟨⟩)
  | valued hvalue =>
    cases hw
    refine h.withQualifier hplace fun u hu => ?_
    rcases hvalue with rfl | rfl
    · exact hu.valueSpace_of_value.toValued
    · exact hu.toValued

/-- What may end is a selector. -/
theorem Spelled.finish (h : d.Spelled t) {l : Selector} (hl : d.finish? = some l) :
    l.Spelled t := by
  obtain ⟨⟨t₁, t₂, t₃, t₄, rfl, h₁, h₂, h₃, h₄⟩, -, hitem⟩ := h
  cases hplace : d.place with
  | item =>
    simp only [finish?, hplace, Option.some.injEq] at hl
    subst hl
    rw [hplace] at h₄
    cases h₄
    have hchain := spelled_chain h₂ (h₃.spelled (hitem hplace))
    have hselector : Selector.Spelled _ _ := h₁.join (.single hchain)
    simpa using hselector
  | _ => simp [finish?, hplace] at hl

/-- What is read to the end is spelled from its beginning. -/
theorem Spelled.read {size start : Nat} {rest : Text} {l : Selector} (h : d.Spelled t)
    (hl : d.read size (Token.all start rest) = .ok l) : l.Spelled (t ++ rest) := by
  induction start, rest using Token.all.induct generalizing d t with
  | case1 start =>
    rw [Token.all, Draft.read] at hl
    cases hfinish : d.finish? with
    | some l' =>
      simp only [hfinish, Except.ok.injEq] at hl
      rw [List.append_nil]
      exact h.finish (hl ▸ hfinish)
    | none => simp [hfinish] at hl
  | case2 start c rest ih =>
    rw [Token.all, Draft.read] at hl
    split at hl
    · rename_i d' hstep
      rw [← Token.next_append c rest, ← List.append_assoc]
      exact ih (h.step (Token.spelled_next c rest) hstep) hl
    · cases hl

end Draft

end Selector

end RichContent
