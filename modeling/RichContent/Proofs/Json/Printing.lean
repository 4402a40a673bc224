/-
What is printed as JSON is read back.

A string is read back whatever is in it: every character is read of the escape
that writes it (`readChar?_escapeChar`). A value is read back if each of its
numbers has a place in 64 bits or a decimal that is read as the same number, and
its objects have their fields in order (`Legible`, `parse?_print`).
-/
import RichContent.Proofs.Json.Numbers
import RichContent.Proofs.Json.Table

namespace RichContent

namespace Json

open Text

/-! ## Strings -/

/-- The characters that are written as a backslash and a letter or a sign, with that. -/
def simpleEscapes : List (Char × Char) :=
  [('"', '"'), ('\\', '\\'), ('\n', 'n'), ('\r', 'r'), ('\t', 't'), ('\x08', 'b'), ('\x0c', 'f')]

/-- A character is written as it is, or with a backslash and a sign, or with its number. -/
theorem escapeChar_cases (c : Char) :
    (∃ x ∈ simpleEscapes, x.1 = c ∧ escapeChar c = ['\\', x.2]) ∨
    (c.toNat < 32 ∧ escapeChar c =
      ['\\', 'u', '0', '0', hexDigit (c.toNat / 16), hexDigit (c.toNat % 16)]) ∨
    (c ≠ '"' ∧ c ≠ '\\' ∧ ¬ c.toNat < 32 ∧ escapeChar c = [c]) := by
  have hsimple : ∀ x ∈ simpleEscapes, escapeChar x.1 = ['\\', x.2] := by decide
  by_cases hc : c ∈ simpleEscapes.map (·.1)
  · obtain ⟨x, hx, rfl⟩ := List.mem_map.1 hc
    exact .inl ⟨x, hx, rfl, hsimple x hx⟩
  obtain ⟨hquote, hslash, hline, hreturn, htab, hback, hfeed⟩ : c ≠ '"' ∧ c ≠ '\\' ∧ c ≠ '\n' ∧
      c ≠ '\r' ∧ c ≠ '\t' ∧ c ≠ '\x08' ∧ c ≠ '\x0c' := by
    simpa [simpleEscapes] using hc
  rw [escapeChar, if_neg hquote, if_neg hslash, if_neg hline, if_neg hreturn, if_neg htab,
    if_neg hback, if_neg hfeed]
  split
  · exact .inr (.inl ⟨‹_›, rfl⟩)
  · exact .inr (.inr ⟨hquote, hslash, ‹_›, rfl⟩)

/-- Every character is read of what it is written as, whatever stands behind it. -/
theorem readChar?_escapeChar (c : Char) : ∃ d w, escapeChar c = d :: w ∧ d ≠ '"' ∧
    ∀ s, readChar? d (w ++ s) = some (c, s) := by
  rcases escapeChar_cases c with ⟨x, hx, rfl, hescape⟩ | ⟨hcontrol, hescape⟩ |
    ⟨hquote, hslash, hplain, hescape⟩
  · have hsimple : ∀ x ∈ simpleEscapes, x.2 ≠ 'u' ∧ simpleEscape? x.2 = some x.1 := by decide
    obtain ⟨hne, hread⟩ := hsimple x hx
    refine ⟨_, _, hescape, by decide, fun s => ?_⟩
    rw [readChar?, if_pos rfl, List.singleton_append, readEscape?, if_neg hne, hread]
    rfl
  · refine ⟨_, _, hescape, by decide, fun s => ?_⟩
    have hdigit (d : Nat) (hd : d < 16) (s : Text) : readDigit? (hexDigit d :: s) = some (d, s) := by
      rw [readDigit?, hexDigit, (digitIn?_eq_some.1 (digitIn?_digitChar (Nat.le_refl 16) hd)).1]
      rfl
    have hzero (s : Text) : readDigit? ('0' :: s) = some (0, s) := rfl
    have hunit : readUnit? ('0' :: '0' :: hexDigit (c.toNat / 16) :: hexDigit (c.toNat % 16) :: s) =
        some (c.toNat, s) := by
      rw [readUnit?_eq]
      simp only [hzero, hdigit (c.toNat / 16) (by omega), hdigit (c.toNat % 16) (by omega),
        Option.bind_some, Option.map_some, Option.some.injEq, Prod.mk.injEq, and_true]
      omega
    show readChar? '\\' ('u' :: '0' :: '0' :: _ :: _ :: s) = _
    rw [readChar?, if_pos rfl, readEscape?, if_pos rfl, readEscaped?_eq, hunit, Option.bind_some]
    simp only [unit?]
    rw [if_neg (by omega), if_neg (by omega), Char.ofNat_toNat]
  · refine ⟨_, _, hescape, hquote, fun s => ?_⟩
    rw [readChar?, if_neg hslash, if_neg hplain]
    rfl

/-- A string is read back, whatever stands behind it. -/
theorem readText?_printed {fuel : Nat} (t r : Text)
    (h : (t.flatMap escapeChar ++ '"' :: r).length ≤ fuel) :
    readText? fuel (t.flatMap escapeChar ++ '"' :: r) = some (t, r) := by
  induction t generalizing fuel with
  | nil =>
    cases fuel with
    | zero => simp at h
    | succ fuel => rw [List.flatMap_nil, List.nil_append, readText?_cons, if_pos rfl]
  | cons c t ih =>
    obtain ⟨d, w, hescape, hquote, hread⟩ := readChar?_escapeChar c
    rw [List.flatMap_cons, hescape, List.append_assoc, List.cons_append] at h ⊢
    simp only [List.length_cons, List.length_append] at h
    cases fuel with
    | zero => omega
    | succ fuel =>
      rw [readText?_cons, if_neg hquote, hread, Option.bind_some]
      simp only
      rw [ih (by simp only [List.length_append, List.length_cons]; omega)]
      rfl

/-! ## Floating-point numbers -/

theorem isNumberChar_of_isDigit {c : Char} (hc : c.isDigit = true) : isNumberChar c = true := by
  simp [isNumberChar, hc]

theorem isNumberChar_of_mem_printDecimal {f : FloatFormat} {x : Decimal} :
    ∀ c ∈ printDecimal f x, isNumberChar c = true := by
  have hdigits : ∀ c ∈ numeral x.digits, isNumberChar c = true :=
    fun c hc => isNumberChar_of_isDigit (isDigit_of_mem_numeral hc)
  have hzeros (n : Nat) : ∀ c ∈ zeros n, isNumberChar c = true := by
    intro c hc
    rw [List.eq_of_mem_replicate hc]
    rfl
  have htake (n : Nat) : ∀ c ∈ (numeral x.digits).take n, isNumberChar c = true :=
    fun c hc => hdigits c (List.mem_of_mem_take hc)
  have hdrop (n : Nat) : ∀ c ∈ (numeral x.digits).drop n, isNumberChar c = true :=
    fun c hc => hdigits c (List.mem_of_mem_drop hc)
  have hexponent (n : Int) : ∀ c ∈ printExponent n, isNumberChar c = true := by
    rw [printExponent]
    refine List.forall_mem_append.2
      ⟨List.forall_mem_cons.2 ⟨rfl, ?_⟩, fun c => isNumberChar_of_mem_printInt⟩
    split
    · exact List.forall_mem_singleton.2 rfl
    · exact List.forall_mem_nil _
  have hfraction : ∀ c ∈ (if (numeral x.digits).drop 1 = [] then [] else
      '.' :: (numeral x.digits).drop 1), isNumberChar c = true := by
    split
    · exact List.forall_mem_nil _
    · exact List.forall_mem_cons.2 ⟨rfl, hdrop 1⟩
  rw [printDecimal]
  split_ifs
  all_goals simp only [List.forall_mem_append, List.forall_mem_cons]
  · exact ⟨⟨hdigits, hzeros _⟩, rfl, rfl, List.forall_mem_nil _⟩
  · exact ⟨htake _, rfl, hdrop _⟩
  · exact ⟨⟨rfl, rfl, hzeros _⟩, hdigits⟩
  · exact ⟨⟨htake 1, hfraction⟩, hexponent _⟩

theorem isNumberChar_of_mem_printFloat {x : Binary64} :
    ∀ c ∈ printFloat x, isNumberChar c = true := by
  have hnumber : ∀ c ∈ (if x.mantissa = 0 then ['0', '.', '0']
      else printDecimal floatFormat x.shortest), isNumberChar c = true := by
    split
    · simp only [List.forall_mem_cons]
      exact ⟨rfl, rfl, rfl, List.forall_mem_nil _⟩
    · exact isNumberChar_of_mem_printDecimal
  rw [printFloat]
  split
  · exact List.forall_mem_cons.2 ⟨rfl, hnumber⟩
  · exact hnumber

/-! ## Values -/

/-- A value that can be read back: a whole number has a place in 64 bits, a floating-point number is
what its decimal is read as, and the fields of an object are in order. -/
inductive Legible : Json → Prop
  | null : Legible null
  | bool (b : Bool) : Legible (bool b)
  | int {n : Int} : fitsWord n = true → Legible (int n)
  | float {x : Binary64} : parse? (printFloat x) = some (float x) → Legible (float x)
  | str (t : Text) : Legible (str t)
  | arr {items : List Json} : (∀ v ∈ items, Legible v) → Legible (arr items)
  | obj {fields : Fields} : Table.Ordered fields → (∀ x ∈ fields, Legible x.2) → Legible (obj fields)

/-- The value is read of its text, whatever stands behind it. -/
def ReadsBack (v : Json) : Prop :=
  ∀ r, Starts isNumberChar r → ∀ fuel, 2 * (v.print ++ r).length + 1 ≤ fuel →
    read? fuel (v.print ++ r) = some (v, r)

theorem ReadsBack.of_succ {v : Json} (h : ∀ r, Starts isNumberChar r → ∀ fuel,
    2 * (v.print ++ r).length ≤ fuel → read? (fuel + 1) (v.print ++ r) = some (v, r)) :
    ReadsBack v := by
  intro r hr fuel henough
  obtain ⟨fuel, rfl⟩ : ∃ n, fuel = n + 1 := ⟨fuel - 1, by omega⟩
  exact h r hr fuel (by omega)

theorem mark?_cons {c d : Char} (hd : isBlank d = false) (t : Text) :
    mark? c (d :: t) = if c = d then some t else none :=
  mark?_of_eq (skipBlanks_cons hd t)

/-- The text of a value begins with no blank and with no bracket that closes. -/
theorem Legible.print_cons {v : Json} (h : Legible v) :
    ∃ c t, v.print = c :: t ∧ isBlank c = false ∧ c ≠ ']' := by
  have hnumber {t : Text} (ht : ∀ c ∈ t, isNumberChar c = true) (hv : parse? t = some v) :
      ∃ c s, t = c :: s ∧ isBlank c = false ∧ c ≠ ']' := by
    cases t with
    | nil => cases hv
    | cons c t =>
      have hc := ht c List.mem_cons_self
      refine ⟨c, t, rfl, isBlank_of_isNumberChar hc, ?_⟩
      rintro rfl
      cases hc
  cases h with
  | null => exact ⟨'n', _, rfl, rfl, by decide⟩
  | bool b =>
    cases b with
    | false => exact ⟨'f', _, rfl, rfl, by decide⟩
    | true => exact ⟨'t', _, rfl, rfl, by decide⟩
  | int hfits => exact hnumber (fun c => isNumberChar_of_mem_printInt) (parse?_printInt hfits)
  | float hread => exact hnumber isNumberChar_of_mem_printFloat hread
  | str t => exact ⟨'"', _, rfl, rfl, by decide⟩
  | @arr items _ => cases items <;> exact ⟨'[', _, rfl, rfl, by decide⟩
  | @obj fields _ _ => cases fields <;> exact ⟨'\x7b', _, rfl, rfl, by decide⟩

section

variable {r : Text} {fuel : Nat}

/-- Items are read one after the other, and each is read back by itself. -/
theorem readItems?_printed {item : Json} {rest : List Json} (h : ∀ v ∈ item :: rest, ReadsBack v)
    (henough : 2 * (item.print ++ (printItems rest ++ r)).length + 2 ≤ fuel) :
    readItems? fuel (item.print ++ (printItems rest ++ r)) = some (item :: rest, r) := by
  induction rest generalizing item fuel with
  | nil =>
    obtain ⟨fuel, rfl⟩ : ∃ n, fuel = n + 1 := ⟨fuel - 1, by omega⟩
    rw [readItems?_succ, h item List.mem_cons_self _ (by rintro c ⟨⟩; rfl) fuel (by omega),
      Option.bind_some]
    simp only [printItems, List.cons_append, List.nil_append, readMore?]
    rw [mark?_cons rfl, mark?_cons rfl, if_neg (by decide), if_pos rfl]
    rfl
  | cons item' rest ih =>
    obtain ⟨fuel, rfl⟩ : ∃ n, fuel = n + 1 := ⟨fuel - 1, by omega⟩
    have hitem := h item List.mem_cons_self (printItems (item' :: rest) ++ r)
      (by rintro c ⟨⟩; rfl) fuel (by omega)
    have hrest : readItems? fuel (item'.print ++ (printItems rest ++ r)) = some (item' :: rest, r) := by
      refine ih (fun v hv => h v (List.mem_cons_of_mem _ hv)) ?_
      simp only [printItems, List.length_append, List.length_cons] at henough ⊢
      omega
    rw [readItems?_succ, hitem, Option.bind_some]
    simp only [printItems, List.cons_append, List.append_assoc, readMore?]
    rw [mark?_cons rfl, if_pos rfl]
    simp only
    rw [hrest]
    rfl

/-- A key is read back, and its value. -/
theorem readField_printed {key : Text} {value : Json} (hvalue : ReadsBack value) {s : Text}
    (hs : Starts isNumberChar s) (henough : 2 * (printField (key, value) ++ s).length + 1 ≤ fuel)
    (read : Text → Option (List (Text × Json) × Text)) :
    ((mark? '"' (printField (key, value) ++ s)).bind fun rest =>
      (readText? (fuel + 1) rest).bind fun (key, rest) =>
        (mark? ':' rest).bind fun rest => (read? fuel rest).bind fun (value, rest) =>
          readMore? '\x7d' read (key, value) rest) =
      readMore? '\x7d' read (key, value) s := by
  have htext : printField (key, value) ++ s =
      '"' :: (key.flatMap escapeChar ++ '"' :: ':' :: (value.print ++ s)) := by
    simp [printField, printText]
  rw [htext] at henough ⊢
  simp only [List.length_append, List.length_cons] at henough
  have hkey : readText? (fuel + 1) (key.flatMap escapeChar ++ '"' :: ':' :: (value.print ++ s)) =
      some (key, ':' :: (value.print ++ s)) := by
    apply readText?_printed
    simp only [List.length_append, List.length_cons]
    omega
  have hread : read? fuel (value.print ++ s) = some (value, s) := by
    apply hvalue s hs
    simp only [List.length_append]
    omega
  rw [mark?_cons rfl, if_pos rfl, Option.bind_some, hkey, Option.bind_some]
  simp only
  rw [mark?_cons rfl, if_pos rfl, Option.bind_some, hread, Option.bind_some]

/-- Fields are read one after the other. -/
theorem readFields?_printed {x : Text × Json} {rest : Fields} (h : ∀ y ∈ x :: rest, ReadsBack y.2)
    (henough : 2 * (printField x ++ (printFields rest ++ r)).length + 2 ≤ fuel) :
    readFields? fuel (printField x ++ (printFields rest ++ r)) = some (x :: rest, r) := by
  induction rest generalizing x fuel with
  | nil =>
    obtain ⟨key, value⟩ := x
    have hvalue : ReadsBack value := h _ List.mem_cons_self
    obtain ⟨fuel, rfl⟩ : ∃ n, fuel = n + 1 := ⟨fuel - 1, by omega⟩
    rw [readFields?_succ, readField_printed hvalue (by rintro c ⟨⟩; rfl) (by omega)]
    simp only [printFields, List.cons_append, List.nil_append, readMore?]
    rw [mark?_cons rfl, mark?_cons rfl, if_neg (by decide), if_pos rfl]
    rfl
  | cons y rest ih =>
    obtain ⟨key, value⟩ := x
    have hvalue : ReadsBack value := h _ List.mem_cons_self
    obtain ⟨fuel, rfl⟩ : ∃ n, fuel = n + 1 := ⟨fuel - 1, by omega⟩
    have hrest : readFields? fuel (printField y ++ (printFields rest ++ r)) = some (y :: rest, r) := by
      refine ih (fun z hz => h z (List.mem_cons_of_mem _ hz)) ?_
      simp only [printFields, List.length_append, List.length_cons] at henough ⊢
      omega
    rw [readFields?_succ, readField_printed hvalue (by rintro c ⟨⟩; rfl) (by omega)]
    simp only [printFields, List.cons_append, List.append_assoc, readMore?]
    rw [mark?_cons rfl, if_pos rfl]
    simp only
    rw [hrest]
    rfl

theorem read?_cons {c : Char} (hc : isBlank c = false) (fuel : Nat) (t : Text) :
    read? (fuel + 1) (c :: t) = readFrom? fuel c t := by
  rw [read?_succ, skipBlanks_cons hc]

theorem readInside?_cons {α : Type} {close c : Char} (hblank : isBlank c = false) (hclose : c ≠ close)
    (make : List α → Json) (read : Text → Option (List α × Text)) (t : Text) :
    readInside? close make read (c :: t) = (read (c :: t)).map fun (l, rest) => (make l, rest) := by
  rw [readInside?, mark?_cons hblank, if_neg hclose.symm, skipBlanks_cons hblank]

theorem readsBack_str (t : Text) : ReadsBack (str t) := by
  refine .of_succ fun r _ fuel henough => ?_
  have htext : print (str t) ++ r = '"' :: (t.flatMap escapeChar ++ '"' :: r) := by
    simp [print, printText]
  rw [htext] at henough ⊢
  rw [read?_cons rfl]
  show (readText? (fuel + 1) _).map _ = _
  rw [readText?_printed t r (by simp only [List.length_cons] at henough; omega)]
  rfl

theorem readsBack_arr {items : List Json} (hitems : ∀ v ∈ items, Legible v)
    (h : ∀ v ∈ items, ReadsBack v) : ReadsBack (arr items) := by
  refine .of_succ fun r _ fuel henough => ?_
  cases items with
  | nil => exact read?_cons rfl fuel _
  | cons item rest =>
    obtain ⟨c, t, ht, hblank, hclose⟩ := (hitems item List.mem_cons_self).print_cons
    have htext : print (arr (item :: rest)) ++ r = '[' :: (item.print ++ (printItems rest ++ r)) := by
      simp [print]
    rw [htext] at henough ⊢
    have hread : readItems? fuel (item.print ++ (printItems rest ++ r)) = some (item :: rest, r) := by
      apply readItems?_printed h
      simp only [List.length_cons] at henough
      omega
    rw [read?_cons rfl]
    show readInside? ']' arr (readItems? fuel) _ = _
    rw [ht, List.cons_append] at hread ⊢
    rw [readInside?_cons hblank hclose, hread]
    rfl

theorem readsBack_obj {fields : Fields} (hordered : Table.Ordered fields)
    (h : ∀ x ∈ fields, ReadsBack x.2) : ReadsBack (obj fields) := by
  refine .of_succ fun r _ fuel henough => ?_
  cases fields with
  | nil => exact read?_cons rfl fuel _
  | cons x rest =>
    obtain ⟨key, value⟩ := x
    have htext : print (obj ((key, value) :: rest)) ++ r =
        '\x7b' :: (printField (key, value) ++ (printFields rest ++ r)) := by
      simp [print]
    rw [htext] at henough ⊢
    have hread : readFields? fuel (printField (key, value) ++ (printFields rest ++ r)) =
        some ((key, value) :: rest, r) := by
      apply readFields?_printed h
      simp only [List.length_cons] at henough
      omega
    have hquote : printField (key, value) ++ (printFields rest ++ r) =
        '"' :: (key.flatMap escapeChar ++ '"' :: ':' :: (value.print ++ (printFields rest ++ r))) := by
      simp [printField, printText]
    have hbrace (t : Text) :
        readFrom? fuel '\x7b' t = readInside? '\x7d' makeObj (readFields? fuel) t := rfl
    rw [read?_cons rfl, hbrace]
    rw [hquote] at hread ⊢
    rw [readInside?_cons rfl (by decide), hread]
    exact congrArg (fun fields => some (obj fields, r)) (Table.ofList_eq_self hordered)

end

/-- **A value that can be read back is read of its text, whatever stands behind it.** -/
theorem Legible.readsBack {v : Json} (h : Legible v) : ReadsBack v := by
  induction h with
  | null => exact .of_succ fun r _ fuel _ => read?_cons rfl fuel _
  | bool b =>
    refine .of_succ fun r _ fuel _ => ?_
    cases b <;> exact read?_cons rfl fuel _
  | int hfits =>
    refine .of_succ fun r hr fuel _ => ?_
    exact read?_number (fun c => isNumberChar_of_mem_printInt) (parse?_printInt hfits) hr fuel
  | float hread =>
    refine .of_succ fun r hr fuel _ => ?_
    exact read?_number isNumberChar_of_mem_printFloat hread hr fuel
  | str t => exact readsBack_str t
  | arr hitems ih => exact readsBack_arr hitems ih
  | obj hordered _ ih => exact readsBack_obj hordered ih

theorem parse?_print {v : Json} (h : Legible v) : parse? v.print = some v := by
  have hread := h.readsBack [] (by rintro c ⟨⟩) _ (Nat.le_refl _)
  rw [List.append_nil] at hread
  rw [parse?_eq (Nat.le_refl _), hread]
  rfl

end Json

end RichContent
