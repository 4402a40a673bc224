/-
Where a start tag ends, by its quotes.

A quote right after an `=`, blanks apart, opens a value if the same quote comes
again, and a value hides all that is in it; so the first angle bracket that is
in no value ends the tag or breaks it off (`cutQuotedTag`). A tag is cut there
if no quote is left open in it and it has an end. Otherwise the first angle
bracket of all decides, and that is another one if a value that is closed holds
it (`cutTag_eq_cutQuotedTag`, `cutTag_in_value`).
-/
import RichContent.Proofs.Markup.Lexing

namespace RichContent

open Text

/-- A text that has a character, split where it comes first. -/
theorem Text.takeWhile_append_cons {c : Char} {t : Text} (h : c ∈ t) :
    t.takeWhile (· != c) ++ c :: (t.dropWhile (· != c)).tail = t := by
  induction t with
  | nil => exact absurd h List.not_mem_nil
  | cons d t ih =>
    by_cases hd : d = c
    · simp [hd]
    · have hmem : c ∈ t := (List.mem_cons.1 h).resolve_left (Ne.symm hd)
      simp [hd, ih hmem]

theorem Text.not_mem_takeWhile_ne (c : Char) (t : Text) : c ∉ t.takeWhile (· != c) := by
  intro h
  simpa using List.mem_takeWhile_imp h

namespace Lexeme

/-! ## The parts of a tag -/

/-- What the rest of a tag is made of. -/
inductive TagPart where
  /-- A value: the quote that opens and closes it, and what is between. -/
  | value (quote : Char) (text : Text)
  /-- A quote where a value would begin, which does not come again. -/
  | openQuote (quote : Char)
  | plain (c : Char)
deriving DecidableEq, Repr

/-- A part as it is written. -/
def TagPart.text : TagPart → Text
  | value q v => q :: v ++ [q]
  | openQuote q => [q]
  | plain c => [c]

/-- Is the last character that is no blank an `=`, with one more character? -/
def endsInEquals (before : Bool) (c : Char) : Bool := if isBlank c then before else c = '='

/-- The parts of a text up to the first angle bracket that is in no value, and what is from there
on. `afterEquals` says whether the last character in front that is no blank is an `=`. -/
def tagParts (afterEquals : Bool) : Text → List TagPart × Text
  | [] => ([], [])
  | c :: rest =>
    if isQuote c ∧ afterEquals then
      if c ∈ rest then
        (tagParts false (rest.dropWhile (· != c)).tail).map
          (.value c (rest.takeWhile (· != c)) :: ·) id
      else (tagParts false rest).map (.openQuote c :: ·) id
    else if c = '<' ∨ c = '>' then ([], c :: rest)
    else (tagParts (endsInEquals afterEquals c) rest).map (.plain c :: ·) id
termination_by t => t.length
decreasing_by
  · have := (List.dropWhile_suffix (· != c) (l := rest)).length_le
    simp only [List.length_tail, List.length_cons]
    omega
  all_goals simp

/-- The rest of a start tag, after `<` and a letter, and what follows the tag: it ends with the
first `>` that is in no value, unless a `<` comes before it. -/
def cutQuotedTag (t : Text) : Option (Text × Text) :=
  match tagParts false t with
  | (parts, '>' :: after) => some (parts.flatMap (·.text) ++ ['>'], after)
  | _ => none

/-- No angle bracket is in the text. -/
def Bare (t : Text) : Prop := ∀ c ∈ t, c ≠ '<' ∧ c ≠ '>'

instance : DecidablePred Bare := fun t =>
  decidable_of_iff (t.all (fun c => c ≠ '<' ∧ c ≠ '>') = true) List.all_iff_forall_prop

section

variable {b : Bool} {t : Text} {q c : Char} {rest : Text}

/-- Nothing is lost. -/
theorem tagParts_append (b : Bool) (t : Text) :
    (tagParts b t).1.flatMap (·.text) ++ (tagParts b t).2 = t := by
  fun_induction tagParts b t with
  | case1 => rfl
  | case2 b c rest hopen hmem ih =>
    have hsplit := takeWhile_append_cons hmem
    rw [← ih] at hsplit
    simpa [TagPart.text] using hsplit
  | case3 b c rest hopen hmem ih => simpa [TagPart.text] using ih
  | case4 b c rest hopen hbracket => rfl
  | case5 b c rest hopen hbracket ih => simpa [TagPart.text] using ih

/-- The parts go up to an angle bracket, or to the end. -/
theorem head?_tagParts (b : Bool) (t : Text) :
    ∀ c ∈ (tagParts b t).2.head?, c = '<' ∨ c = '>' := by
  fun_induction tagParts b t with
  | case1 => simp
  | case2 b c rest hopen hmem ih => exact ih
  | case3 b c rest hopen hmem ih => exact ih
  | case4 b c rest hopen hbracket => simpa using hbracket
  | case5 b c rest hopen hbracket ih => exact ih

theorem bare_append {v w : Text} : Bare (v ++ w) ↔ Bare v ∧ Bare w := List.forall_mem_append

theorem bare_of_isQuote (hq : isQuote q = true) : Bare [q] := by
  rcases eq_of_isQuote hq with rfl | rfl <;> decide

/-- What is no value has no angle bracket in it, nor have the quotes of values. -/
theorem bare_of_mem_tagParts {p : TagPart} (h : p ∈ (tagParts b t).1)
    (hvalue : ∀ q v, p = .value q v → Bare v) : Bare p.text := by
  fun_induction tagParts b t with
  | case1 => exact absurd h List.not_mem_nil
  | case2 b c rest hopen hmem ih =>
    rcases List.mem_cons.1 h with rfl | h
    · have hquote := bare_of_isQuote hopen.1
      exact bare_append.2 ⟨bare_append.2 ⟨hquote, hvalue _ _ rfl⟩, hquote⟩
    · exact ih h
  | case3 b c rest hopen hmem ih =>
    rcases List.mem_cons.1 h with rfl | h
    · exact bare_of_isQuote hopen.1
    · exact ih h
  | case4 b c rest hopen hbracket => exact absurd h List.not_mem_nil
  | case5 b c rest hopen hbracket ih =>
    rcases List.mem_cons.1 h with rfl | h
    · exact List.forall_mem_singleton.2 (not_or.1 hbracket)
    · exact ih h

/-! ## The scan goes by the parts -/

/-- A value that is not closed hides everything. -/
theorem scanTag_of_not_mem (h : q ∉ t) (b : Bool) : scanTag (some q) b t = .ranOut := by
  induction t generalizing b with
  | nil => rfl
  | cons c t ih =>
    obtain ⟨hc, ht⟩ := List.ne_and_not_mem_of_not_mem_cons h
    rw [scanTag, if_neg (Ne.symm hc), ih ht]
    rfl

theorem scanTag_closedValue (hq : isQuote c = true) (hmem : c ∈ rest) :
    scanTag none true (c :: rest) = (scanTag none false (rest.dropWhile (· != c)).tail).behind
      (TagPart.value c (rest.takeWhile (· != c))).text := by
  have hvalue := scanTag_value (not_mem_takeWhile_ne c rest) false (rest.dropWhile (· != c)).tail
  rw [takeWhile_append_cons hmem] at hvalue
  rw [scanTag_quote hq, hvalue]
  rfl

theorem scanTag_plain (hopen : ¬ (isQuote c = true ∧ b = true)) (hbracket : ¬ (c = '<' ∨ c = '>')) :
    scanTag none b (c :: rest) = (scanTag none (endsInEquals b c) rest).cons c := by
  have hquote : ¬ ((c = '"' ∨ c = '\'') ∧ b = true) := by
    intro h
    exact hopen ⟨by simpa [isQuote] using h.1, h.2⟩
  obtain ⟨hless, hgreater⟩ := not_or.1 hbracket
  rw [scanTag, if_neg hquote, if_neg hgreater, if_neg hless, endsInEquals]

/-- A scan that comes upon a quote which is left open runs out. -/
theorem scanTag_of_openQuote (h : .openQuote q ∈ (tagParts b t).1) :
    scanTag none b t = .ranOut := by
  fun_induction tagParts b t with
  | case1 => exact absurd h List.not_mem_nil
  | case2 b c rest hopen hmem ih =>
    have hin := (List.mem_cons.1 h).resolve_left (by rintro ⟨⟩)
    rw [hopen.2, scanTag_closedValue hopen.1 hmem, TagEnd.behind_eq_ranOut, ih hin]
  | case3 b c rest hopen hmem ih =>
    rw [hopen.2, scanTag_quote hopen.1, scanTag_of_not_mem hmem]
    rfl
  | case4 b c rest hopen hbracket => exact absurd h List.not_mem_nil
  | case5 b c rest hopen hbracket ih =>
    have hin := (List.mem_cons.1 h).resolve_left (by rintro ⟨⟩)
    rw [scanTag_plain hopen hbracket, ih hin]
    rfl

/-- Where no quote is left open the scan comes to the same angle bracket. -/
theorem scanTag_of_closed (h : ∀ q, .openQuote q ∉ (tagParts b t).1) :
    scanTag none b t =
      (scanTag none false (tagParts b t).2).behind ((tagParts b t).1.flatMap (·.text)) := by
  fun_induction tagParts b t with
  | case1 => rfl
  | case2 b c rest hopen hmem ih =>
    have hin := ih fun q hq => h q (List.mem_cons_of_mem _ hq)
    rw [hopen.2, scanTag_closedValue hopen.1 hmem, hin, ← TagEnd.behind_append]
    rfl
  | case3 b c rest hopen hmem ih => exact absurd List.mem_cons_self (h c)
  | case4 b c rest hopen hbracket =>
    have hstop : ∀ b', scanTag none b' (c :: rest) =
        if c = '>' then .closed ['>'] rest else .broken := by
      intro b'
      rcases hbracket with rfl | rfl <;> simp [scanTag]
    rw [hstop, hstop]
    rfl
  | case5 b c rest hopen hbracket ih =>
    have hin := ih fun q hq => h q (List.mem_cons_of_mem _ hq)
    rw [scanTag_plain hopen hbracket, hin]
    rfl

/-! ## The cut -/

theorem cutPlainTag_append {w : Text} (h : Bare w) (t : Text) :
    cutPlainTag (w ++ t) = (cutPlainTag t).map fun x => (w ++ x.1, x.2) := by
  induction w with
  | nil => simp
  | cons c w ih =>
    obtain ⟨⟨hless, hgreater⟩, hw⟩ := List.forall_mem_cons.1 h
    rw [List.cons_append, cutPlainTag, if_neg hgreater, if_neg hless, ih hw, Option.map_map]
    rfl

/-- The first angle bracket that is in no value decides. -/
theorem cutQuotedTag_eq (t : Text) :
    cutQuotedTag t = (cutPlainTag (tagParts false t).2).map fun x =>
      ((tagParts false t).1.flatMap (·.text) ++ x.1, x.2) := by
  have hhead := head?_tagParts false t
  rw [cutQuotedTag]
  generalize tagParts false t = x at hhead
  obtain ⟨parts, behind⟩ := x
  cases behind with
  | nil => rfl
  | cons c after =>
    rcases hhead c rfl with rfl | rfl
    · rfl
    · rfl

/-- Where no value holds an angle bracket it does not matter how the quotes are read. -/
theorem cutPlainTag_eq_cutQuotedTag
    (h : ∀ q v, .value q v ∈ (tagParts false t).1 → Bare v) : cutPlainTag t = cutQuotedTag t := by
  have hbare : Bare ((tagParts false t).1.flatMap (·.text)) := by
    intro c hc
    obtain ⟨p, hp, hcp⟩ := List.mem_flatMap.1 hc
    refine bare_of_mem_tagParts hp ?_ c hcp
    intro q v hpv
    exact h q v (hpv ▸ hp)
  have happ := cutPlainTag_append hbare (tagParts false t).2
  rw [tagParts_append] at happ
  rw [happ, cutQuotedTag_eq]

end

/-- **A start tag is cut where its quotes say**, if no quote is left open in it and it has an end,
or if no angle bracket is in a value. -/
theorem cutTag_eq_cutQuotedTag {t : Text}
    (h : ((∀ q, .openQuote q ∉ (tagParts false t).1) ∧ (tagParts false t).2 ≠ []) ∨
      ∀ q v, .value q v ∈ (tagParts false t).1 → Bare v) :
    cutTag t = cutQuotedTag t := by
  by_cases hopen : ∃ q, .openQuote q ∈ (tagParts false t).1
  · obtain ⟨q, hq⟩ := hopen
    have hbare := h.resolve_left fun hclosed => hclosed.1 q hq
    rw [cutTag, scanTag_of_openQuote hq]
    exact cutPlainTag_eq_cutQuotedTag hbare
  · have hscan := scanTag_of_closed (not_exists.1 hopen)
    have hhead := head?_tagParts false t
    cases hbehind : (tagParts false t).2 with
    | nil =>
      have hbare := h.resolve_left fun hclosed => hclosed.2 hbehind
      have hout : scanTag none false [] = .ranOut := rfl
      rw [cutTag, hscan, hbehind, TagEnd.behind_eq_ranOut.2 hout]
      exact cutPlainTag_eq_cutQuotedTag hbare
    | cons c after =>
      rw [hbehind] at hscan hhead
      rw [cutQuotedTag_eq, hbehind, cutTag, hscan]
      rcases hhead c rfl with rfl | rfl
      · rw [TagEnd.behind_eq_broken.2 (by simp [scanTag])]
        rfl
      · have hend : scanTag none false ('>' :: after) = .closed ['>'] after := by simp [scanTag]
        rw [hend, TagEnd.behind_closed]
        rfl

/-- Brackets and the other quote in values, blanks before a value, a quote that opens none, and one
behind the tag that is never closed. -/
theorem cutTag_eq_cutQuotedTag_mixed :
    let t := " a='x>\"y' b= \"<'\" c=it's d=e\">f g='h".toList
    (∀ q, .openQuote q ∉ (tagParts false t).1) ∧ (tagParts false t).2 ≠ [] ∧
      cutTag t = cutQuotedTag t ∧
      cutTag t = some (" a='x>\"y' b= \"<'\" c=it's d=e\">".toList, "f g='h".toList) := by
  intro t
  have hparts : tagParts false t =
      (" a=".toList.map .plain ++ .value '\'' "x>\"y".toList ::
        (" b= ".toList.map .plain ++ .value '"' "<'".toList :: " c=it's d=e\"".toList.map .plain),
        ">f g='h".toList) := by decide +kernel
  have hclosed : ∀ q, .openQuote q ∉ (tagParts false t).1 := by
    rw [hparts]
    simp
  have hend : (tagParts false t).2 ≠ [] := by
    rw [hparts]
    simp
  exact ⟨hclosed, hend, cutTag_eq_cutQuotedTag (.inl ⟨hclosed, hend⟩), by decide +kernel⟩

/-- **A quote that is left open, or an end that is missing, has the tag cut inside of a value that
is closed.** -/
theorem cutTag_in_value :
    let leftOpen := " a=\"x>y\" b='z>w".toList
    let endless := " a=\"x>y\" b".toList
    cutQuotedTag leftOpen = some (" a=\"x>y\" b='z>".toList, "w".toList) ∧
      cutTag leftOpen = some (" a=\"x>".toList, "y\" b='z>w".toList) ∧
      cutQuotedTag endless = none ∧
      cutTag endless = some (" a=\"x>".toList, "y\" b".toList) := by
  decide +kernel

end Lexeme

end RichContent
