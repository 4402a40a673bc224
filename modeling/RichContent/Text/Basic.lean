/-
Texts, and the few questions the rest of the library asks of them: how many
bytes they take in UTF-8, which characters are blank, what is left when blanks
are cut off, and where a given piece first occurs.

Two classes of blanks are in use and they differ. `isBlank` is the five ASCII
characters that separate words in markup; `isWhiteSpace` is the Unicode
property, which has the vertical tab and the non-ASCII spaces as well.
-/

namespace RichContent

/-- A text is the list of its characters. -/
abbrev Text := List Char

namespace Text

def utf8Size : Text → Nat
  | [] => 0
  | c :: rest => c.utf8Size + utf8Size rest

@[simp] theorem utf8Size_nil : utf8Size [] = 0 := rfl

@[simp] theorem utf8Size_cons (c : Char) (t : Text) :
    utf8Size (c :: t) = c.utf8Size + utf8Size t := rfl

@[simp] theorem utf8Size_append (s t : Text) :
    utf8Size (s ++ t) = utf8Size s + utf8Size t := by
  induction s with
  | nil => simp
  | cons c s ih => simp [ih, Nat.add_assoc]

/-! ## Blanks -/

/-- The blanks of markup: space, tab, line feed, form feed, carriage return. -/
def isBlank (c : Char) : Bool :=
  c == ' ' || c == '\t' || c == '\n' || c == '\x0c' || c == '\r'

/-- The characters with the Unicode property `White_Space`. -/
def isWhiteSpace (c : Char) : Bool :=
  let n := c.toNat
  (9 ≤ n && n ≤ 13) || n == 0x20 || n == 0x85 || n == 0xA0 || n == 0x1680
    || (0x2000 ≤ n && n ≤ 0x200A) || n == 0x2028 || n == 0x2029 || n == 0x202F
    || n == 0x205F || n == 0x3000

theorem ne_of_isWhiteSpace {c d : Char} (hd : isWhiteSpace d = false) (h : isWhiteSpace c = true) :
    c ≠ d := by
  rintro rfl
  rw [hd] at h
  cases h

theorem isAlphanum_of_isWhiteSpace {c : Char} (h : isWhiteSpace c = true) :
    c.isAlphanum = false := by
  rw [Bool.eq_false_iff]
  intro hletter
  change ((decide (c.val ≥ 'A'.val ∧ c.val ≤ 'Z'.val) ||
    (decide (c.val ≥ 'a'.val) && decide (c.val ≤ 'z'.val))) ||
    (decide (c.val ≥ '0'.val) && decide (c.val ≤ '9'.val))) = true at hletter
  simp only [Bool.or_eq_true, Bool.and_eq_true, decide_eq_true_eq, UInt32.le_iff_toNat_le,
    ge_iff_le] at hletter
  change (((65 ≤ c.toNat ∧ c.toNat ≤ 90) ∨ (97 ≤ c.toNat ∧ c.toNat ≤ 122)) ∨
    (48 ≤ c.toNat ∧ c.toNat ≤ 57)) at hletter
  simp only [isWhiteSpace, Bool.or_eq_true, Bool.and_eq_true, decide_eq_true_eq,
    beq_iff_eq] at h
  omega

/-- The text without the characters of a class at its end. -/
def trimEndWhere (p : Char → Bool) (t : Text) : Text := (t.reverse.dropWhile p).reverse

def trimEnd (t : Text) : Text := trimEndWhere isWhiteSpace t

def trim (t : Text) : Text := trimEnd (t.dropWhile isWhiteSpace)

/-! ## Letters, pieces and occurrences -/

/-- The text with the capital letters of ASCII made small; all else stays. -/
def lower (t : Text) : Text := t.map Char.toLower

/-- What follows `piece` in a text that begins with it. -/
def after? : (piece t : Text) → Option Text
  | [], t => some t
  | _ :: _, [] => none
  | p :: piece, c :: t => if p = c then after? piece t else none

theorem after?_eq_some {piece t rest : Text} :
    after? piece t = some rest ↔ t = piece ++ rest := by
  induction piece generalizing t with
  | nil => simp [after?]
  | cons p piece ih =>
    cases t with
    | nil => simp [after?]
    | cons c t =>
      by_cases h : p = c
      · simp [after?, h, ih]
      · simp [after?, h, Ne.symm h]

/-- The first occurrence of `piece`: what is before it and what is after it. -/
def cutAt (piece : Text) (t : Text) : Option (Text × Text) :=
  match after? piece t with
  | some rest => some ([], rest)
  | none =>
    match t with
    | [] => none
    | c :: rest => (cutAt piece rest).map fun (before, after) => (c :: before, after)

theorem append_of_cutAt {piece t before after : Text} (h : cutAt piece t = some (before, after)) :
    before ++ piece ++ after = t := by
  induction t generalizing before after with
  | nil =>
    rw [cutAt] at h
    split at h
    · rename_i hp; cases h; simp [after?_eq_some.1 hp]
    · simp at h
  | cons c t ih =>
    rw [cutAt] at h
    split at h
    · rename_i hp; cases h; simp [after?_eq_some.1 hp]
    · obtain ⟨⟨b, a⟩, hba, heq⟩ := Option.map_eq_some_iff.1 h
      cases heq
      simp [← ih hba]

def cutAfterGreater : Text → Option (Text × Text)
  | [] => none
  | c :: rest =>
    if c = '>' then some (['>'], rest)
    else (cutAfterGreater rest).map fun (before, after) => (c :: before, after)

theorem append_of_cutAfterGreater {t before after : Text}
    (h : cutAfterGreater t = some (before, after)) : before ++ after = t := by
  induction t generalizing before after with
  | nil => simp [cutAfterGreater] at h
  | cons c t ih =>
    rw [cutAfterGreater] at h
    split at h
    · obtain ⟨rfl, rfl⟩ := Prod.mk.inj (Option.some.inj h)
      simp [*]
    · obtain ⟨⟨b, a⟩, hba, heq⟩ := Option.map_eq_some_iff.1 h
      obtain ⟨rfl, rfl⟩ := Prod.mk.inj heq
      simp [ih hba]

theorem length_lt_of_cutAfterGreater {t before after : Text}
    (h : cutAfterGreater t = some (before, after)) : after.length < t.length := by
  induction t generalizing before after with
  | nil => simp [cutAfterGreater] at h
  | cons c t ih =>
    rw [cutAfterGreater] at h
    split at h
    · obtain ⟨rfl, rfl⟩ := Prod.mk.inj (Option.some.inj h)
      simp
    · obtain ⟨⟨b, a⟩, hba, heq⟩ := Option.map_eq_some_iff.1 h
      obtain ⟨rfl, rfl⟩ := Prod.mk.inj heq
      have := ih hba
      simp only [List.length_cons]
      omega

theorem ne_nil_of_cutAfterGreater {t before after : Text}
    (h : cutAfterGreater t = some (before, after)) : before ≠ [] := by
  intro hb
  have happ := append_of_cutAfterGreater h
  have hlt := length_lt_of_cutAfterGreater h
  simp [hb] at happ
  simp [happ] at hlt

def words (t : Text) : List Text := (t.splitOnP isBlank).filter (· ≠ [])

def commaParts (t : Text) : List Text := (t.splitOn ',').map trim

end Text

end RichContent
