/-
The attributes of a tag, read one character at a time.

A reading is always at one of a few places: in the name of the tag, between
attributes, in or behind the name of an attribute, or before or in a value
(`Place`). What a character means depends on the place alone (`Place.next`), so
a text can be read in two parts (`Place.read_append`), and the attributes that
are read are those of the scan (`StartTag.scanned_eq_read`). A quote opens a
value at one place only (`StartTag.opensValue_iff`).
-/
import RichContent.Proofs.Markup.StartTag

namespace RichContent

open Text

/-! ## Places -/

/-- Where in a tag a reading of its attributes is. -/
inductive Place where
  /-- In the name of the tag. -/
  | inTagName
  /-- Where a name can begin. -/
  | gap
  /-- In the name of an attribute, as far as it goes. -/
  | inName (name : Text)
  /-- Behind the name of an attribute, where an `=` can come. -/
  | behindName (name : Text)
  /-- Behind the `=`. -/
  | beforeValue (name : Text)
  | inQuoted (name : Text) (quote : Char) (value : Text)
  | inUnquoted (name value : Text)
deriving DecidableEq, Repr

theorem Attribute.isGap_of_isNameChar {c : Char} (h : isNameChar c = true) : isGap c = false := by
  obtain ⟨hblank, hslash, -⟩ := isNameChar_iff.1 h
  simp [isGap, hblank, hslash]

namespace Place

/-- What a character is where a name can begin. -/
def nextOfGap (c : Char) : Place := if Attribute.isNameChar c then inName [c] else gap

/-- What a character is behind a name, and the attribute of that name if it has no value. -/
def nextOfName (name : Text) (c : Char) : List Attribute × Place :=
  if isBlank c then ([], behindName name)
  else if c = '=' then ([], beforeValue name)
  else ([⟨lower name, none⟩], nextOfGap c)

/-- One character more: the attribute that ends with it, and the place behind it. -/
def next : Place → Char → List Attribute × Place
  | inTagName, c => ([], if Attribute.isGap c then gap else inTagName)
  | gap, c => ([], nextOfGap c)
  | inName name, c =>
    if Attribute.isNameChar c then ([], inName (name ++ [c])) else nextOfName name c
  | behindName name, c => nextOfName name c
  | beforeValue name, c =>
    if isBlank c then ([], beforeValue name)
    else if isQuote c then ([], inQuoted name c [])
    else ([], inUnquoted name [c])
  | inQuoted name q v, c =>
    if c = q then ([⟨lower name, some (decode v)⟩], gap) else ([], inQuoted name q (v ++ [c]))
  | inUnquoted name v, c =>
    if isBlank c then ([⟨lower name, some (decode v)⟩], gap) else ([], inUnquoted name (v ++ [c]))

/-- The attribute that the end of the tag ends. -/
def ended : Place → List Attribute
  | inTagName | gap => []
  | inName name | behindName name => [⟨lower name, none⟩]
  | beforeValue name => [⟨lower name, some []⟩]
  | inQuoted name _ v | inUnquoted name v => [⟨lower name, some (decode v)⟩]

/-- The place behind a text. -/
def after (p : Place) : Text → Place
  | [] => p
  | c :: t => (p.next c).2.after t

/-- The attributes that end within a text. -/
def given (p : Place) : Text → List Attribute
  | [] => []
  | c :: t => (p.next c).1 ++ (p.next c).2.given t

/-- The attributes that are read if a text is the rest of the tag. -/
def read (p : Place) (t : Text) : List Attribute := p.given t ++ (p.after t).ended

section

variable (p : Place) (c : Char) (name v s t : Text)

@[simp] theorem read_nil : p.read [] = p.ended := rfl

theorem read_cons : p.read (c :: t) = (p.next c).1 ++ (p.next c).2.read t := List.append_assoc ..

theorem after_append : p.after (s ++ t) = (p.after s).after t := by
  induction s generalizing p with
  | nil => rfl
  | cons c s ih => exact ih (p.next c).2

theorem given_append : p.given (s ++ t) = p.given s ++ (p.after s).given t := by
  induction s generalizing p with
  | nil => rfl
  | cons c s ih => rw [List.cons_append, given, ih, given, after, List.append_assoc]

/-- A text is read in two parts. -/
theorem read_append : p.read (s ++ t) = p.given s ++ (p.after s).read t := by
  rw [read, read, given_append, after_append, List.append_assoc]

/-! ## What is read from each place -/

theorem next_gap_of_isGap {c : Char} (h : Attribute.isGap c = true) : gap.next c = ([], gap) := by
  have hname : ¬ Attribute.isNameChar c = true := by
    intro hname
    rw [Attribute.isGap_of_isNameChar hname] at h
    cases h
  rw [next, nextOfGap, if_neg hname]

theorem read_gap : gap.read t = gap.read (t.dropWhile Attribute.isGap) := by
  induction t with
  | nil => rfl
  | cons c t ih =>
    by_cases hc : Attribute.isGap c = true
    · rw [List.dropWhile_cons_of_pos hc, ← ih, read_cons, next_gap_of_isGap hc, List.nil_append]
    · rw [List.dropWhile_cons_of_neg hc]

theorem read_inTagName : inTagName.read t = gap.read (t.dropWhile (!Attribute.isGap ·)) := by
  induction t with
  | nil => rfl
  | cons c t ih =>
    rw [read_cons, next]
    by_cases hc : Attribute.isGap c = true
    · rw [if_pos hc, List.dropWhile_cons_of_neg (by simp [hc]), read_cons, next_gap_of_isGap hc]
    · rw [if_neg hc, List.dropWhile_cons_of_pos (by simp [hc]), List.nil_append, ih]

theorem read_inName : (inName name).read t =
    (behindName (name ++ t.takeWhile Attribute.isNameChar)).read
      (t.dropWhile Attribute.isNameChar) := by
  induction t generalizing name with
  | nil => simp [ended]
  | cons c t ih =>
    rw [read_cons, next]
    by_cases hc : Attribute.isNameChar c = true
    · rw [if_pos hc, List.takeWhile_cons_of_pos hc, List.dropWhile_cons_of_pos hc]
      simpa using ih (name ++ [c])
    · rw [if_neg hc, List.takeWhile_cons_of_neg hc, List.dropWhile_cons_of_neg hc, List.append_nil,
        read_cons, next]

theorem read_inQuoted {q : Char} : (inQuoted name q v).read t =
    ⟨lower name, some (decode (v ++ t.takeWhile (· != q)))⟩ ::
      gap.read ((t.dropWhile (· != q)).drop 1) := by
  induction t generalizing v with
  | nil => simp [ended]
  | cons c t ih =>
    rw [read_cons, next]
    by_cases hc : c = q
    · simp [hc]
    · simpa [hc] using ih (v ++ [c])

theorem read_inUnquoted : (inUnquoted name v).read t =
    ⟨lower name, some (decode (v ++ t.takeWhile (!isBlank ·)))⟩ ::
      gap.read (t.dropWhile (!isBlank ·)) := by
  induction t generalizing v with
  | nil => simp [ended]
  | cons c t ih =>
    rw [read_cons, next]
    cases hc : isBlank c with
    | false => simpa [hc] using ih (v ++ [c])
    | true =>
      have hgap : Attribute.isGap c = true := by simp [Attribute.isGap, hc]
      simp [hc, read_cons, next_gap_of_isGap hgap]

theorem read_beforeValue : (beforeValue name).read t =
    ⟨lower name, some (Attribute.scanValue (t.dropWhile isBlank)).1⟩ ::
      gap.read (Attribute.scanValue (t.dropWhile isBlank)).2 := by
  induction t with
  | nil => rfl
  | cons c t ih =>
    rw [read_cons, next]
    cases hblank : isBlank c with
    | true => simpa [hblank] using ih
    | false =>
      rw [List.dropWhile_cons_of_neg (by simp [hblank]), Attribute.scanValue]
      by_cases hq : c = '"' ∨ c = '\''
      · have hquote : isQuote c = true := by simpa [isQuote] using hq
        rw [if_pos hq]
        simp [hquote, read_inQuoted]
      · have hquote : isQuote c = false := by simpa [isQuote] using hq
        rw [if_neg hq]
        simp [hquote, hblank, read_inUnquoted]

theorem read_behindName : (behindName name).read t =
    ⟨lower name, (Attribute.scanAfterName t).1⟩ :: gap.read (Attribute.scanAfterName t).2 := by
  induction t with
  | nil => rfl
  | cons c t ih =>
    rw [read_cons, next, nextOfName]
    cases hblank : isBlank c with
    | true =>
      have hafter : Attribute.scanAfterName (c :: t) = Attribute.scanAfterName t := by
        simp [Attribute.scanAfterName, hblank]
      rw [hafter, ← ih]
      rfl
    | false =>
      by_cases hc : c = '='
      · subst hc
        have hafter : Attribute.scanAfterName ('=' :: t) =
            (some (Attribute.scanValue (t.dropWhile isBlank)).1,
              (Attribute.scanValue (t.dropWhile isBlank)).2) := by
          simp [Attribute.scanAfterName, hblank]
        rw [hafter]
        simpa using read_beforeValue name t
      · have hafter : Attribute.scanAfterName (c :: t) = (none, c :: t) := by
          simp [Attribute.scanAfterName, hblank, hc]
        rw [hafter, if_neg (by simp), if_neg hc, read_cons]
        rfl

/-- **One character at a time the same attributes are read.** -/
theorem scan_eq_read : Attribute.scan t = gap.read t := by
  induction hn : t.length using Nat.strongRecOn generalizing t with
  | ind n ih =>
    have hlen := (List.dropWhile_suffix Attribute.isGap (l := t)).length_le
    rw [read_gap]
    cases hdrop : t.dropWhile Attribute.isGap with
    | nil => rw [Attribute.scan_of_nil hdrop]; rfl
    | cons c rest =>
      rw [hdrop, List.length_cons] at hlen
      rw [Attribute.scan_of_cons hdrop, read_cons, next, nextOfGap]
      split
      · have hname := (List.dropWhile_suffix Attribute.isNameChar (l := rest)).length_le
        have hvalue := Attribute.length_scanAfterName_le (rest.dropWhile Attribute.isNameChar)
        rw [ih _ (by omega) _ rfl, List.nil_append, read_inName, read_behindName]
        rfl
      · rw [ih _ (by omega) _ rfl, List.nil_append]

end

end Place

/-! ## Quotes that open a value -/

namespace StartTag

/-- Every attribute written in a tag, from what is between its angle brackets, repeated names
included. -/
def scanned (inner : Text) : List Attribute :=
  Attribute.scan (inner.dropWhile fun c => !(isBlank c || c == '/'))

/-- A tag keeps the first attribute of each name. -/
theorem attributes_parse (t : Text) :
    (parse t).attributes = Attribute.keepFirst [] (scanned (interior t)) := rfl

theorem scanned_eq_read (inner : Text) : scanned inner = Place.inTagName.read inner := by
  rw [scanned, Place.scan_eq_read, Place.read_inTagName]
  rfl

theorem scanned_quoted (front v back : Text) (q : Char) :
    scanned (front ++ q :: v ++ q :: back) =
      Place.inTagName.given front ++ (Place.inTagName.after front).read (q :: v ++ q :: back) := by
  rw [List.append_assoc, scanned_eq_read, Place.read_append]

/-- A quote behind this front of a tag opens the value of an attribute: up to the next such quote
all is its value, and what follows is read by itself. -/
def OpensValue (front : Text) (quote : Char) : Prop :=
  ∃ l name, ∀ v back, quote ∉ v →
    scanned (front ++ quote :: v ++ quote :: back) =
      l ++ ⟨name, some (decode v)⟩ :: Attribute.scan back

end StartTag

namespace Place

variable {q : Char} {v : Text}

theorem next_beforeValue_of_isQuote (hq : isQuote q = true) (name : Text) :
    (beforeValue name).next q = ([], inQuoted name q []) := by
  have hblank : isBlank q = false := by rcases eq_of_isQuote hq with rfl | rfl <;> decide
  simp [next, hblank, hq]

theorem read_quotedValue (hq : isQuote q = true) (hv : q ∉ v) (name back : Text) :
    (beforeValue name).read (q :: v ++ q :: back) =
      ⟨lower name, some (decode v)⟩ :: gap.read back := by
  have hne : ∀ c ∈ v, (c != q) = true := by
    intro c hc
    have hcq : c ≠ q := fun heq => hv (heq ▸ hc)
    simpa using hcq
  rw [List.cons_append, read_cons, next_beforeValue_of_isQuote hq, List.nil_append, read_inQuoted,
    List.takeWhile_append_of_pos hne, List.dropWhile_append_of_pos hne]
  simp

/-- Only before a value two quotes are an attribute of their own. -/
theorem exists_of_length_read (hq : isQuote q = true) {p : Place}
    (h : (p.read [q, q, 'x']).length = (p.read [q, q]).length + 1) :
    ∃ name, p = beforeValue name := by
  have hname : Attribute.isNameChar q = true := by rcases eq_of_isQuote hq with rfl | rfl <;> decide
  have hx : Attribute.isNameChar 'x' = true := by decide
  have hgap := Attribute.isGap_of_isNameChar hname
  have hxgap := Attribute.isGap_of_isNameChar hx
  obtain ⟨hblank, -, hequals, -⟩ := Attribute.isNameChar_iff.1 hname
  cases p with
  | beforeValue name => exact ⟨name, rfl⟩
  | inTagName => simp [read_cons, next, hgap, hxgap, ended] at h
  | gap => simp [read_cons, next, nextOfGap, hname, hx, ended] at h
  | inName name => simp [read_cons, next, hname, hx, ended] at h
  | behindName name =>
    simp [read_cons, next, nextOfName, nextOfGap, hblank, hequals, hname, hx, ended] at h
  | inUnquoted name v =>
    have hxblank : isBlank 'x' = false := by decide
    simp [read_inUnquoted, hblank, hxblank, ended] at h
  | inQuoted name q' v =>
    rw [read_inQuoted, read_inQuoted] at h
    by_cases hqq : q = q'
    · simp [hqq, read_cons, next, nextOfGap, hqq ▸ hname, hx, ended] at h
    · by_cases hxq : 'x' = q'
      · subst hxq
        simp [hqq, ended] at h
      · simp [hqq, hxq, ended] at h

end Place

/-- **A quote opens a value where one can come, and nowhere else.** -/
theorem StartTag.opensValue_iff {q : Char} (hq : isQuote q = true) (front : Text) :
    OpensValue front q ↔ ∃ name, Place.inTagName.after front = .beforeValue name := by
  constructor
  · intro hopens
    obtain ⟨l, name, h⟩ := hopens
    -- behind a value that is over an `x` is one attribute more, and elsewhere it belongs to the quotes
    have hshort := congrArg List.length (h [] [] List.not_mem_nil)
    have hlong := congrArg List.length (h [] ['x'] List.not_mem_nil)
    have hnone : Attribute.scan [] = [] := Attribute.scan_of_nil rfl
    have hone : Attribute.scan ['x'] = [⟨['x'], none⟩] := by decide +kernel
    rw [scanned_quoted, hnone] at hshort
    rw [scanned_quoted, hone] at hlong
    simp only [List.length_append, List.length_cons, List.length_nil] at hshort hlong
    refine Place.exists_of_length_read hq ?_
    simp only [List.cons_append, List.nil_append] at hshort hlong
    omega
  · intro hbefore
    obtain ⟨name, hplace⟩ := hbefore
    refine ⟨Place.inTagName.given front, lower name, ?_⟩
    intro v back hv
    rw [scanned_quoted, hplace, Place.read_quotedValue hq hv, Place.scan_eq_read]

end RichContent
