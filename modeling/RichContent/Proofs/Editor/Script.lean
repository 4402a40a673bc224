/-
JSON in a script.

A backslash is put into every `</` of the text of a value. Of a value's text
only what is in a string has a `<`, and there `\/` is read as `/`; so the
strings, keys included, are all that changes (`guardEndTags_print`), and every
text, whether it is printed or not, is read with the backslashes as it is read
without them (`parse?_guardEndTags`).
-/
import RichContent.Proofs.Editor.Page
import RichContent.Proofs.Json.Printing

namespace RichContent

open Text

namespace Render

open Json

/-! ## The guard -/

theorem guard_cons_of_ne {c : Char} (hc : c ≠ '<') (t : Text) :
    guardEndTags (c :: t) = c :: guardEndTags t := by
  rw [guardEndTags]
  rintro r rfl
  exact absurd rfl hc

theorem guard_slash (t : Text) :
    guardEndTags ('<' :: '/' :: t) = '<' :: '\\' :: guardEndTags ('/' :: t) := by
  rw [guardEndTags, guard_cons_of_ne (by decide)]

/-- Behind a character comes what is guarded by itself, or a backslash and that. -/
theorem guard_cons (c : Char) (t : Text) : guardEndTags (c :: t) = c :: guardEndTags t ∨
    c = '<' ∧ ∃ r, t = '/' :: r ∧ guardEndTags (c :: t) = '<' :: '\\' :: guardEndTags t := by
  by_cases h : c = '<' ∧ t.head? = some '/'
  · obtain ⟨rfl, hslash⟩ := h
    cases t with
    | nil => cases hslash
    | cons d r =>
      cases hslash
      exact .inr ⟨rfl, r, rfl, guard_slash r⟩
  · refine .inl ?_
    rw [guardEndTags]
    rintro r rfl rfl
    exact h ⟨rfl, rfl⟩

theorem exists_guard_cons (c : Char) (t : Text) : ∃ s, guardEndTags (c :: t) = c :: s := by
  rcases guard_cons c t with h | ⟨rfl, -, -, h⟩
  · exact ⟨_, h⟩
  · exact ⟨_, h⟩

theorem length_le_guardEndTags (t : Text) : t.length ≤ (guardEndTags t).length := by
  fun_induction guardEndTags t with
  | case1 => exact Nat.le_refl _
  | case2 rest ih => simp only [List.length_cons]; omega
  | case3 c rest _ ih => simp only [List.length_cons]; omega

theorem guardEndTags_eq_nil {t : Text} : guardEndTags t = [] ↔ t = [] := by
  constructor
  · intro h
    have hlength := length_le_guardEndTags t
    rw [h] at hlength
    exact List.eq_nil_of_length_eq_zero (Nat.le_zero.1 hlength)
  · rintro rfl
    rfl

theorem getLast?_ne_of_cons {c d : Char} {t : Text} (h : (c :: t).getLast? ≠ some d) :
    t.getLast? ≠ some d := by
  intro ht
  rw [List.getLast?_cons, ht] at h
  exact h rfl

/-- Two texts are guarded apart from each other, unless they have a `</` where they meet. -/
theorem guard_append {s t : Text} (h : s.getLast? ≠ some '<' ∨ t.head? ≠ some '/') :
    guardEndTags (s ++ t) = guardEndTags s ++ guardEndTags t := by
  fun_induction guardEndTags s with
  | case1 => rfl
  | case2 rest ih =>
    rw [List.cons_append, List.cons_append, guardEndTags,
      ih (h.imp_left fun hlast => getLast?_ne_of_cons (getLast?_ne_of_cons hlast))]
    rfl
  | case3 c rest hne ih =>
    rw [List.cons_append, guardEndTags, ih (h.imp_left getLast?_ne_of_cons)]
    · rfl
    · rintro r rfl hr
      cases rest with
      | nil =>
        rw [List.nil_append] at hr
        rw [hr] at h
        rcases h with h | h
        · exact h rfl
        · exact h rfl
      | cons d rest => exact hne rest rfl (by cases hr; rfl)

theorem guard_of_ne {t : Text} (h : ∀ c ∈ t, c ≠ '<') : guardEndTags t = t := by
  induction t with
  | nil => rfl
  | cons c t ih =>
    obtain ⟨hc, ht⟩ := List.forall_mem_cons.1 h
    rw [guard_cons_of_ne hc, ih ht]

/-! ## Reading behind the guard -/

theorem skipBlanks_guard (t : Text) : skipBlanks (guardEndTags t) = guardEndTags (skipBlanks t) := by
  induction t with
  | nil => rfl
  | cons c t ih =>
    cases hc : Json.isBlank c with
    | true =>
      have hne : c ≠ '<' := by
        rintro rfl
        cases hc
      rw [guard_cons_of_ne hne]
      simpa [skipBlanks, hc] using ih
    | false =>
      obtain ⟨s, hs⟩ := exists_guard_cons c t
      rw [skipBlanks_cons hc, hs, skipBlanks_cons hc]

theorem after?_guard {word : Text} (hword : ∀ c ∈ word, c ≠ '<') (t : Text) :
    after? word (guardEndTags t) = (after? word t).map guardEndTags := by
  induction word generalizing t with
  | nil => rfl
  | cons c word ih =>
    obtain ⟨hc, hword⟩ := List.forall_mem_cons.1 hword
    cases t with
    | nil => rfl
    | cons d t =>
      by_cases hd : c = d
      · rw [guard_cons_of_ne (hd ▸ hc), after?, after?, if_pos hd, if_pos hd]
        exact ih hword t
      · obtain ⟨s, hs⟩ := exists_guard_cons d t
        rw [hs, after?, after?, if_neg hd, if_neg hd]
        rfl

theorem mark?_guard {c : Char} (hc : c ≠ '<') (t : Text) :
    mark? c (guardEndTags t) = (mark? c t).map guardEndTags := by
  rw [mark?, skipBlanks_guard, after?_guard (List.forall_mem_singleton.2 hc), mark?]

theorem passes_guard : Passes guardEndTags where
  cons {c} t hc := by
    refine guard_cons_of_ne ?_ t
    rintro rfl
    cases hc
  stop {t} ht := by
    intro c hc
    rw [head?_guardEndTags] at hc
    exact ht c hc

theorem readDigit?_guard (t : Text) :
    readDigit? (guardEndTags t) = onRest guardEndTags (readDigit? t) := by
  cases t with
  | nil => rfl
  | cons c t =>
    rcases guard_cons c t with h | ⟨rfl, -, -, h⟩
    · rw [h, readDigit?, readDigit?]
      cases digitValue? c <;> rfl
    · rw [h]
      rfl

theorem readUnit?_guard (t : Text) :
    readUnit? (guardEndTags t) = onRest guardEndTags (readUnit? t) := by
  rw [readUnit?_eq, readUnit?_eq, readDigit?_guard]
  refine onRest_bind fun a r => ?_
  simp only
  rw [readDigit?_guard]
  refine onRest_bind fun b r => ?_
  simp only
  rw [readDigit?_guard]
  refine onRest_bind fun c r => ?_
  simp only
  rw [readDigit?_guard]
  exact onRest_map fun _ _ => rfl

theorem unit?_guard (high : Nat) (t : Text) :
    unit? high (guardEndTags t) = onRest guardEndTags (unit? high t) := by
  rw [unit?, unit?]
  split
  · rw [after?_guard (List.all_iff_forall_prop.1 (by decide))]
    cases after? ['\\', 'u'] t with
    | none => rfl
    | some r =>
      simp only [Option.map_some, Option.bind_some]
      rw [readUnit?_guard]
      refine onRest_bind fun low r => ?_
      simp only
      split <;> rfl
  · split <;> rfl

theorem readChar?_guard (c : Char) (t : Text) :
    readChar? c (guardEndTags t) = onRest guardEndTags (readChar? c t) := by
  rw [readChar?, readChar?]
  split
  · cases t with
    | nil => rfl
    | cons d t =>
      rcases guard_cons d t with h | ⟨rfl, -, -, h⟩
      · rw [h, readEscape?, readEscape?]
        split
        · rw [readEscaped?_eq, readEscaped?_eq, readUnit?_guard]
          exact onRest_bind fun high r => unit?_guard high r
        · cases simpleEscape? d <;> rfl
      · rw [h]
        rfl
  · split <;> rfl

/-- **In a string a backslash before a slash makes no difference.** -/
theorem readText?_slash (fuel : Nat) (t : Text) :
    readText? fuel ('\\' :: '/' :: t) = readText? fuel ('/' :: t) := by
  cases fuel with
  | zero => rfl
  | succ fuel => rw [readText?_cons, readText?_cons]; rfl

theorem readText?_guard (fuel : Nat) (t : Text) :
    readText? fuel (guardEndTags t) = onRest guardEndTags (readText? fuel t) := by
  induction fuel generalizing t with
  | zero => rfl
  | succ fuel ih =>
    cases t with
    | nil => rfl
    | cons c rest =>
      rcases guard_cons c rest with h | ⟨rfl, r, rfl, h⟩
      · rw [h, readText?_cons, readText?_cons]
        split
        · rfl
        · rw [readChar?_guard]
          refine onRest_bind fun d r => ?_
          simp only
          rw [ih]
          exact onRest_map fun _ _ => rfl
      · have hless (t : Text) : readText? (fuel + 1) ('<' :: t) =
            (readText? fuel t).map fun x => ('<' :: x.1, x.2) := readText?_cons fuel '<' t
        rw [h, hless, hless, guard_cons_of_ne (by decide), readText?_slash,
          ← guard_cons_of_ne (by decide), ih]
        exact onRest_map fun _ _ => rfl

section

variable {α : Type} {read : Text → Option (List α × Text)}

theorem readInside?_guard (hread : ∀ t, read (guardEndTags t) = onRest guardEndTags (read t))
    {close : Char} (hclose : close ≠ '<') (make : List α → Json) (t : Text) :
    readInside? close make read (guardEndTags t) =
      onRest guardEndTags (readInside? close make read t) := by
  rw [readInside?, readInside?, mark?_guard hclose]
  cases mark? close t with
  | some r => rfl
  | none =>
    simp only [Option.map_none]
    rw [skipBlanks_guard, hread]
    exact onRest_map fun _ _ => rfl

theorem readMore?_guard (hread : ∀ t, read (guardEndTags t) = onRest guardEndTags (read t))
    {close : Char} (hclose : close ≠ '<') (a : α) (t : Text) :
    readMore? close read a (guardEndTags t) = onRest guardEndTags (readMore? close read a t) := by
  rw [readMore?, readMore?, mark?_guard (by decide)]
  cases mark? ',' t with
  | some r =>
    simp only [Option.map_some]
    rw [hread]
    exact onRest_map fun _ _ => rfl
  | none =>
    simp only [Option.map_none]
    rw [mark?_guard hclose]
    cases mark? close t <;> rfl

end

theorem read?_guard (fuel : Nat) :
    (∀ t, read? fuel (guardEndTags t) = onRest guardEndTags (read? fuel t)) ∧
    (∀ t, readItems? fuel (guardEndTags t) = onRest guardEndTags (readItems? fuel t)) ∧
    ∀ t, readFields? fuel (guardEndTags t) = onRest guardEndTags (readFields? fuel t) := by
  induction fuel with
  | zero => exact ⟨fun _ => rfl, fun _ => rfl, fun _ => rfl⟩
  | succ fuel ih =>
    obtain ⟨hvalue, hitems, hfields⟩ := ih
    have hword {word : Text} (hw : ∀ c ∈ word, c ≠ '<') (v : Json) (t : Text) :
        ((after? word (guardEndTags t)).map fun rest => (v, rest)) =
          onRest guardEndTags ((after? word t).map fun rest => (v, rest)) := by
      rw [after?_guard hw]
      cases after? word t <;> rfl
    refine ⟨fun t => ?_, fun t => ?_, fun t => ?_⟩
    · rw [read?_succ, read?_succ, skipBlanks_guard]
      cases skipBlanks t with
      | nil => rfl
      | cons c rest =>
        by_cases hless : c = '<'
        · subst hless
          obtain ⟨s, hs⟩ := exists_guard_cons '<' rest
          have hnone (s : Text) : readFrom? fuel '<' s = none := readNumber?_of_ne rfl false s
          rw [hs]
          simp only [hnone, onRest_none]
        · rw [guard_cons_of_ne hless]
          simp only [readFrom?]
          split_ifs
          · exact hword (List.all_iff_forall_prop.1 (by decide)) _ rest
          · exact hword (List.all_iff_forall_prop.1 (by decide)) _ rest
          · exact hword (List.all_iff_forall_prop.1 (by decide)) _ rest
          · rw [readText?_guard]
            exact onRest_map fun _ _ => rfl
          · exact readInside?_guard hitems (by decide) _ rest
          · exact readInside?_guard hfields (by decide) _ rest
          · exact passes_guard.readNumber? true rest
          · rw [← guard_cons_of_ne hless]
            exact passes_guard.readNumber? false (c :: rest)
    · rw [readItems?_succ, readItems?_succ, hvalue]
      exact onRest_bind fun item r => readMore?_guard hitems (by decide) item r
    · rw [readFields?_succ, readFields?_succ, mark?_guard (by decide)]
      cases mark? '"' t with
      | none => rfl
      | some r =>
        simp only [Option.map_some, Option.bind_some]
        rw [readText?_guard]
        refine onRest_bind fun key r => ?_
        simp only
        rw [mark?_guard (by decide)]
        cases mark? ':' r with
        | none => rfl
        | some r =>
          simp only [Option.map_some, Option.bind_some]
          rw [hvalue]
          exact onRest_bind fun value r => readMore?_guard hfields (by decide) (key, value) r

/-- **Every text is read with the backslashes as it is read without them.** -/
theorem parse?_guardEndTags (t : Text) : parse? (guardEndTags t) = parse? t := by
  have henough : 2 * t.length + 1 ≤ 2 * (guardEndTags t).length + 1 := by
    have hlength := length_le_guardEndTags t
    omega
  rw [parse?_eq (Nat.le_refl _), parse?_eq henough, (read?_guard _).1]
  cases read? _ t with
  | none => rfl
  | some x =>
    show (if skipBlanks (guardEndTags x.2) = [] then some x.1 else none) = _
    rw [skipBlanks_guard]
    simp only [guardEndTags_eq_nil]
    rfl

end Render

/-! ## What is changed -/

namespace Json

mutual

/-- The value without blanks, where `write` writes the strings and the keys. -/
def printWith (write : Text → Text) : Json → Text
  | null => "null".toList
  | bool true => "true".toList
  | bool false => "false".toList
  | int n => printInt n
  | float x => printFloat x
  | str t => write t
  | arr [] => ['[', ']']
  | arr (item :: rest) => '[' :: printWith write item ++ printItemsWith write rest
  | obj [] => ['\x7b', '\x7d']
  | obj (field :: rest) => '\x7b' :: printFieldWith write field ++ printFieldsWith write rest

/-- The items that follow the first, and the bracket. -/
def printItemsWith (write : Text → Text) : List Json → Text
  | [] => [']']
  | item :: rest => ',' :: printWith write item ++ printItemsWith write rest

/-- A key and its value. -/
def printFieldWith (write : Text → Text) : Text × Json → Text
  | (key, value) => write key ++ ':' :: printWith write value

/-- The fields that follow the first, and the brace. -/
def printFieldsWith (write : Text → Text) : List (Text × Json) → Text
  | [] => ['\x7d']
  | field :: rest => ',' :: printFieldWith write field ++ printFieldsWith write rest

end

mutual

theorem print_eq_printWith : ∀ v : Json, v.print = v.printWith printText
  | null => rfl
  | bool true => rfl
  | bool false => rfl
  | int _ => rfl
  | float _ => rfl
  | str _ => rfl
  | arr [] => rfl
  | arr (item :: rest) => by
    rw [print, printWith, print_eq_printWith item, printItems_eq rest]
  | obj [] => rfl
  | obj (field :: rest) => by
    rw [print, printWith, printField_eq field, printFields_eq rest]

theorem printItems_eq : ∀ items : List Json, printItems items = printItemsWith printText items
  | [] => rfl
  | item :: rest => by
    rw [printItems, printItemsWith, print_eq_printWith item, printItems_eq rest]

theorem printField_eq : ∀ field : Text × Json, printField field = printFieldWith printText field
  | (key, value) => by rw [printField, printFieldWith, print_eq_printWith value]

theorem printFields_eq : ∀ fields : List (Text × Json),
    printFields fields = printFieldsWith printText fields
  | [] => rfl
  | field :: rest => by
    rw [printFields, printFieldsWith, printField_eq field, printFields_eq rest]

end

/-- The characters of a string with their escapes, where a `/` behind a `<` has a backslash too. -/
def guardedChars : Text → Text
  | [] => []
  | '<' :: '/' :: t => '<' :: '\\' :: '/' :: guardedChars t
  | c :: t => escapeChar c ++ guardedChars t

/-- A string with its quotes, where a `/` behind a `<` has a backslash. -/
def guardedText (t : Text) : Text := '"' :: guardedChars t ++ ['"']

end Json

namespace Render

open Json

/-- What a character is written as begins with the character or with a backslash, and has a `<` only
if it is one. -/
theorem escapeChar_plain (c : Char) :
    ((Json.escapeChar c).head? = some c ∨ (Json.escapeChar c).head? = some '\\') ∧
      (c ≠ '<' → ∀ d ∈ Json.escapeChar c, d ≠ '<') := by
  rcases escapeChar_cases c with ⟨x, hx, rfl, hescape⟩ | ⟨hcontrol, hescape⟩ | ⟨-, -, -, hescape⟩
  · have hsimple : ∀ x ∈ simpleEscapes, x.2 ≠ '<' := by decide
    rw [hescape]
    refine ⟨.inr rfl, fun _ => List.forall_mem_cons.2 ⟨by decide, ?_⟩⟩
    exact List.forall_mem_singleton.2 (hsimple x hx)
  · have hdigit : ∀ d < 16, hexDigit d ≠ '<' := by decide
    rw [hescape]
    refine ⟨.inr rfl, fun _ => ?_⟩
    simp only [List.forall_mem_cons]
    exact ⟨by decide, by decide, by decide, by decide, hdigit _ (by omega), hdigit _ (by omega),
      List.forall_mem_nil _⟩
  · rw [hescape]
    exact ⟨.inl rfl, fun hc => List.forall_mem_singleton.2 hc⟩

theorem guard_flatMap_escapeChar (t : Text) :
    guardEndTags (t.flatMap Json.escapeChar) = guardedChars t := by
  fun_induction guardedChars t with
  | case1 => rfl
  | case2 t ih =>
    have happ : ('<' :: '/' :: t).flatMap Json.escapeChar =
        '<' :: '/' :: t.flatMap Json.escapeChar := rfl
    rw [happ, guardEndTags, ih]
  | case3 c t hne ih =>
    by_cases hc : c = '<'
    · subst hc
      have hhead : (t.flatMap Json.escapeChar).head? ≠ some '/' := by
        cases t with
        | nil => simp
        | cons d t =>
          have hd : d ≠ '/' := by
            rintro rfl
            exact hne t rfl rfl
          have hfirst := (escapeChar_plain d).1
          rw [List.flatMap_cons, List.head?_append]
          rcases hfirst with h | h
          · rw [h]
            simpa using hd
          · rw [h]
            simp
      rw [List.flatMap_cons, guard_append (.inr hhead), ih]
      rfl
    · have hplain := (escapeChar_plain c).2 hc
      have hlast : (Json.escapeChar c).getLast? ≠ some '<' :=
        fun h => hplain '<' (List.mem_of_getLast? h) rfl
      rw [List.flatMap_cons, guard_append (.inl hlast), guard_of_ne hplain, ih]

/-- In a string just the `/` behind a `<` are changed. -/
theorem guardEndTags_printText (t : Text) : guardEndTags (printText t) = guardedText t := by
  rw [printText, List.cons_append, guard_cons_of_ne (by decide), guard_append (.inr (by decide)),
    guard_flatMap_escapeChar]
  rfl

theorem guard_number {t : Text} (ht : ∀ c ∈ t, isNumberChar c = true) : guardEndTags t = t := by
  refine guard_of_ne fun c hc => ?_
  rintro rfl
  cases ht '<' hc

theorem head?_printItemsWith (write : Text → Text) (items : List Json) :
    (printItemsWith write items).head? ≠ some '/' := by
  cases items <;> simp [printItemsWith]

theorem head?_printFieldsWith (write : Text → Text) (fields : List (Text × Json)) :
    (printFieldsWith write fields).head? ≠ some '/' := by
  cases fields <;> simp [printFieldsWith]

mutual

/-- **Nothing is changed but the strings and the keys.** -/
theorem guard_printWith : ∀ v : Json, guardEndTags (v.printWith printText) = v.printWith guardedText
  | .null => rfl
  | .bool true => rfl
  | .bool false => rfl
  | .int n => guard_number fun _ => isNumberChar_of_mem_printInt
  | .float x => guard_number isNumberChar_of_mem_printFloat
  | .str t => guardEndTags_printText t
  | .arr [] => rfl
  | .arr (item :: rest) => by
    rw [printWith, List.cons_append, guard_cons_of_ne (by decide),
      guard_append (.inr (head?_printItemsWith _ rest)), guard_printWith item,
      guard_printItemsWith rest]
    rfl
  | .obj [] => rfl
  | .obj (field :: rest) => by
    rw [printWith, List.cons_append, guard_cons_of_ne (by decide),
      guard_append (.inr (head?_printFieldsWith _ rest)), guard_printFieldWith field,
      guard_printFieldsWith rest]
    rfl

theorem guard_printItemsWith : ∀ items : List Json,
    guardEndTags (printItemsWith printText items) = printItemsWith guardedText items
  | [] => rfl
  | item :: rest => by
    rw [printItemsWith, List.cons_append, guard_cons_of_ne (by decide),
      guard_append (.inr (head?_printItemsWith _ rest)), guard_printWith item,
      guard_printItemsWith rest]
    rfl

theorem guard_printFieldWith : ∀ field : Text × Json,
    guardEndTags (printFieldWith printText field) = printFieldWith guardedText field
  | (key, value) => by
    rw [printFieldWith, guard_append (.inr (by simp)), guard_cons_of_ne (by decide),
      guardEndTags_printText, guard_printWith value]
    rfl

theorem guard_printFieldsWith : ∀ fields : List (Text × Json),
    guardEndTags (printFieldsWith printText fields) = printFieldsWith guardedText fields
  | [] => rfl
  | field :: rest => by
    rw [printFieldsWith, List.cons_append, guard_cons_of_ne (by decide),
      guard_append (.inr (head?_printFieldsWith _ rest)), guard_printFieldWith field,
      guard_printFieldsWith rest]
    rfl

end

theorem scriptJson_eq (v : Json) : scriptJson v = v.printWith guardedText := by
  rw [scriptJson, print_eq_printWith, guard_printWith]

/-- A string is read whether or not its slashes have backslashes. -/
theorem parse?_guardedText (t : Text) : parse? (guardedText t) = some (.str t) := by
  rw [← guardEndTags_printText, parse?_guardEndTags]
  exact parse?_print (.str t)

theorem not_infix_of_endless {t : Text} (h : Endless t) : ¬ ['<', '/'] <:+: t := by
  intro hinfix
  have hpair := List.IsChain.infix h hinfix
  exact (List.isChain_cons_cons.1 hpair).1 ⟨rfl, rfl⟩

/-- **The arguments of the script are what was meant.** The JSON in the script has no `</`, and is
read as the JSON without the backslashes is. It differs from that in its strings, keys included, and
there only in that a `/` behind a `<` has a backslash; and each of these strings is read as the one
that was meant. So every value that can be read back at all is read of the script. -/
theorem scriptJson_read_back (v : Json) :
    ¬ "</".toList <:+: scriptJson v ∧
    parse? (scriptJson v) = parse? v.print ∧
    (v.print = v.printWith printText ∧ scriptJson v = v.printWith guardedText) ∧
    (∀ t, parse? (guardedText t) = some (.str t)) ∧
    (v.Legible → parse? (scriptJson v) = some v) := by
  have hparse : parse? (scriptJson v) = parse? v.print := parse?_guardEndTags v.print
  refine ⟨?_, hparse, ⟨print_eq_printWith v, scriptJson_eq v⟩, parse?_guardedText, fun hv => ?_⟩
  · exact not_infix_of_endless (endless_guardEndTags v.print)
  · rw [hparse, parse?_print hv]

/-- A `</` in a key and in a string, where a backslash stands before, between and behind it, with
escapes of a quote and of a line break, and numbers beside it. -/
theorem scriptJson_read_back_hostile :
    let v : Json := .obj [("</".toList, .arr [.str "<\\/</script>\"\n</\\".toList,
      .float ⟨false, 4503599627370496, -53⟩, .int (-7), .null])]
    let t := "\x7b\"<\\/\":[\"<\\\\/<\\/script>\\\"\\n<\\/\\\\\",0.5,-7,null]\x7d".toList
    v.Legible ∧ scriptJson v = t ∧ ¬ "</".toList <:+: t ∧ parse? t = parse? v.print ∧ parse? t = some v := by
  intro v t
  obtain ⟨hend, hparse, -, -, hread⟩ := scriptJson_read_back v
  have hfloat : parse? (printFloat ⟨false, 4503599627370496, -53⟩) =
      some (.float ⟨false, 4503599627370496, -53⟩) := by rfl
  have hv : v.Legible := by
    refine .obj (List.pairwise_singleton _ _) (List.forall_mem_singleton.2 (.arr ?_))
    simp only [List.forall_mem_cons]
    exact ⟨.str _, .float hfloat, .int rfl, .null, List.forall_mem_nil _⟩
  have ht : scriptJson v = t := by decide +kernel
  rw [ht] at hend hparse hread
  exact ⟨hv, ht, hend, hparse, hread hv⟩

end Render

end RichContent
